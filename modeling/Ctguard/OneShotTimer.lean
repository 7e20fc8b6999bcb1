import Mathlib.Data.List.Induction
import Mathlib.Data.Int.Notation

/-!
# One-shot timers

A timer is idle or holds one deadline with a payload. Arming it replaces what it holds,
cancelling empties it, and a poll after the deadline takes the payload out. After any
sequence of signals it holds what was armed last, unless it was cancelled or polled too
late since.
-/

namespace Ctguard

universe u

/-- The deadline and the payload of an armed timer. -/
abbrev OneShotTimer (α : Type u) := Option (ℤ × α)

namespace OneShotTimer

inductive Signal (α : Type u) where
  | arm (deadline : ℤ) (payload : α)
  | cancel
  | poll (now : ℤ)

variable {α : Type u}

/-- What a poll takes out of a timer. -/
def due (now : ℤ) (timer : OneShotTimer α) : Option α :=
  (timer.filter fun p => p.1 < now).map Prod.snd

def step (timer : OneShotTimer α) : Signal α → OneShotTimer α
  | .arm deadline payload => some (deadline, payload)
  | .cancel => none
  | .poll now => timer.filter fun p => now ≤ p.1

def run (timer : OneShotTimer α) (signals : List (Signal α)) : OneShotTimer α :=
  signals.foldl step timer

@[simp] theorem run_nil (timer : OneShotTimer α) : timer.run [] = timer := rfl

@[simp] theorem run_cons (timer : OneShotTimer α) (x : Signal α) (xs : List (Signal α)) :
    timer.run (x :: xs) = (timer.step x).run xs := rfl

@[simp] theorem run_append (timer : OneShotTimer α) (xs ys : List (Signal α)) :
    timer.run (xs ++ ys) = (timer.run xs).run ys :=
  List.foldl_append

theorem due_eq_some {now : ℤ} {timer : OneShotTimer α} {payload : α} :
    timer.due now = some payload ↔ ∃ deadline, timer = some (deadline, payload) ∧ deadline < now := by
  cases timer with
  | none => simp [due]
  | some p =>
    obtain ⟨deadline, payload'⟩ := p
    by_cases h : deadline < now
    · simp [due, Option.filter, h]
    · have hnot : ∀ d, d = deadline ∧ payload' = payload → ¬ d < now := by
        rintro d ⟨rfl, -⟩
        exact h
      simp [due, Option.filter, h]

/-- A signal that leaves a timer with this deadline alone. -/
def Signal.Early (deadline : ℤ) : Signal α → Prop
  | .arm _ _ => False
  | .cancel => False
  | .poll now => now ≤ deadline

theorem step_of_early {deadline : ℤ} {payload : α} {x : Signal α} (h : x.Early deadline) :
    step (some (deadline, payload)) x = some (deadline, payload) := by
  cases x with
  | arm _ _ => exact h.elim
  | cancel => exact h.elim
  | poll now =>
    have hle : now ≤ deadline := h
    simp [step, Option.filter, hle]

theorem run_none_of_early {deadline : ℤ} {xs : List (Signal α)}
    (h : ∀ x ∈ xs, x.Early deadline) : run (none : OneShotTimer α) xs = none := by
  induction xs with
  | nil => rfl
  | cons x xs ih =>
    rw [run_cons]
    cases x with
    | arm _ _ => exact (h _ List.mem_cons_self).elim
    | cancel => exact (h _ List.mem_cons_self).elim
    | poll now => exact ih fun y hy => h y (List.mem_cons_of_mem _ hy)

theorem run_of_early {deadline : ℤ} {payload : α} {xs : List (Signal α)}
    (h : ∀ x ∈ xs, x.Early deadline) :
    run (some (deadline, payload)) xs = some (deadline, payload) := by
  induction xs with
  | nil => rfl
  | cons x xs ih =>
    obtain ⟨hx, hxs⟩ := List.forall_mem_cons.mp h
    rw [run_cons, step_of_early hx]
    exact ih hxs

/-- A timer holds what it held before or what a signal has armed. -/
theorem run_eq_some {timer : OneShotTimer α} {xs : List (Signal α)} {deadline : ℤ} {payload : α}
    (h : run timer xs = some (deadline, payload)) :
    timer = some (deadline, payload) ∨ .arm deadline payload ∈ xs := by
  induction xs generalizing timer with
  | nil => exact .inl h
  | cons x xs ih =>
    rcases ih h with hstep | hmem
    · cases x with
      | arm deadline' payload' =>
        cases hstep
        exact .inr List.mem_cons_self
      | cancel => simp [step] at hstep
      | poll now => exact .inl (Option.filter_eq_some_iff.mp hstep).1
    · exact .inr (List.mem_cons_of_mem _ hmem)

/-- What an idle timer holds after some signals was armed last, and nothing has touched it
since. -/
theorem run_eq_some_iff {xs : List (Signal α)} {deadline : ℤ} {payload : α} :
    run none xs = some (deadline, payload) ↔
      ∃ before after, xs = before ++ .arm deadline payload :: after ∧
        ∀ x ∈ after, x.Early deadline := by
  constructor
  · intro h
    induction xs using List.reverseRecOn with
    | nil => simp at h
    | append_singleton xs x ih =>
      rw [run_append, run_cons, run_nil] at h
      cases x with
      | arm deadline' payload' =>
        cases h
        exact ⟨xs, [], rfl, by simp⟩
      | cancel => simp [step] at h
      | poll now =>
        obtain ⟨hrun, hle⟩ := Option.filter_eq_some_iff.mp h
        obtain ⟨before, after, rfl, hafter⟩ := ih hrun
        refine ⟨before, after ++ [.poll now], by simp, ?_⟩
        intro x hx
        rcases List.mem_append.mp hx with hx | hx
        · exact hafter x hx
        · rw [List.mem_singleton.mp hx]
          have hearly : now ≤ deadline := of_decide_eq_true hle
          exact hearly
  · rintro ⟨before, after, rfl, hafter⟩
    rw [run_append, run_cons]
    exact run_of_early hafter

end OneShotTimer

end Ctguard
