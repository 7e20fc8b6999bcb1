import Ctguard.StepRuns
import Mathlib.Data.List.Perm.Basic

/-!
# Steps that write fields

A run does not depend on the order of steps that commute with each other. Steps commute if they
write different fields of a record, each with a value of its own. A record is given by the
operation that copies a field from one value to another.
-/

namespace Ctguard

universe u v w

section Swaps

variable {σ : Type u} {α : Type v} (step : σ → α → Option σ)

/-- The two steps can be taken in any order. -/
def Swaps (x y : α) : Prop :=
  ∀ s, ((step s x).bind fun t => step t y) = (step s y).bind fun t => step t x

variable {step}

theorem Swaps.refl (x : α) : Swaps step x x := fun _ => rfl

theorem Swaps.symm {x y : α} (h : Swaps step x y) : Swaps step y x := fun s => (h s).symm

/-- The order of a run is irrelevant if all its steps commute. -/
theorem runSteps_perm {xs ys : List α} (hperm : xs.Perm ys)
    (hswaps : ∀ x ∈ xs, ∀ y ∈ xs, Swaps step x y) (s : σ) :
    runSteps step s xs = runSteps step s ys := by
  induction hperm generalizing s with
  | nil => rfl
  | cons x hperm ih =>
    rw [runSteps_cons, runSteps_cons]
    have htail : ∀ y ∈ _, ∀ z ∈ _, Swaps step y z := fun y hy z hz =>
      hswaps y (List.mem_cons_of_mem x hy) z (List.mem_cons_of_mem x hz)
    exact Option.bind_congr fun t _ => ih htail t
  | swap x y xs =>
    have hswap := hswaps y List.mem_cons_self x (List.mem_cons_of_mem y List.mem_cons_self) s
    simp only [runSteps_cons, ← Option.bind_assoc, hswap]
  | trans hfirst hsecond ih ih' =>
    rw [ih hswaps]
    refine ih' ?_ s
    intro y hy z hz
    exact hswaps y (hfirst.mem_iff.mpr hy) z (hfirst.mem_iff.mpr hz)

/-- A step can be taken later if it commutes with those before it. -/
theorem runSteps_postpone {x : α} {xs : List α} (hswaps : ∀ y ∈ xs, Swaps step x y) (s : σ) :
    runSteps step s (x :: xs) = runSteps step s (xs ++ [x]) := by
  induction xs generalizing s with
  | nil => rfl
  | cons y xs ih =>
    have hswap := hswaps y List.mem_cons_self s
    have htail : ∀ t, runSteps step t (x :: xs) = runSteps step t (xs ++ [x]) :=
      ih fun z hz => hswaps z (List.mem_cons_of_mem y hz)
    have hrest : runSteps step s (y :: xs ++ [x]) =
        (step s y).bind fun t => runSteps step t (x :: xs) := by
      rw [List.cons_append, runSteps_cons]
      exact Option.bind_congr fun t _ => (htail t).symm
    rw [hrest]
    simp only [runSteps_cons, ← Option.bind_assoc, hswap]

/-- The steps of one kind can be taken last. -/
theorem runSteps_partition (p : α → Bool) {xs : List α}
    (hswaps : ∀ x ∈ xs, ∀ y ∈ xs, p x = true → p y = false → Swaps step x y) (s : σ) :
    runSteps step s xs = runSteps step s (xs.filter (!p ·) ++ xs.filter p) := by
  induction xs generalizing s with
  | nil => rfl
  | cons x xs ih =>
    have htail : ∀ t, runSteps step t xs = runSteps step t (xs.filter (!p ·) ++ xs.filter p) :=
      ih fun y hy z hz => hswaps y (List.mem_cons_of_mem x hy) z (List.mem_cons_of_mem x hz)
    cases hp : p x with
    | false =>
      simp only [List.filter_cons, hp, Bool.not_false, if_true, Bool.false_eq_true, if_false,
        List.cons_append, runSteps_cons, htail]
    | true =>
      have hlater : ∀ y ∈ xs.filter (!p ·), Swaps step x y := by
        intro y hy
        obtain ⟨hmem, hkind⟩ := List.mem_filter.mp hy
        exact hswaps x List.mem_cons_self y (List.mem_cons_of_mem x hmem) hp (by simpa using hkind)
      have hfront := runSteps_postpone hlater s
      rw [runSteps_cons] at hfront ⊢
      simp only [List.filter_cons, hp, Bool.not_true, Bool.false_eq_true, if_false, if_true, htail,
        runSteps_append]
      rw [runSteps_append] at hfront
      have hassoc := congrArg (Option.bind · fun t => runSteps step t (xs.filter p)) hfront
      simpa [Option.bind_assoc] using hassoc

end Swaps

section Fields

/-- A record with fields: `copy k s t` is `t` with the field `k` of `s`. -/
structure Fields (κ : Type w) (σ : Type u) where
  copy : κ → σ → σ → σ
  copy_self : ∀ k s, copy k s s = s
  copy_copy : ∀ k s t u, copy k s (copy k t u) = copy k s u
  copy_comm : ∀ {k l}, k ≠ l → ∀ s t u, copy k s (copy l t u) = copy l t (copy k s u)

/-- The value of the field `n`, if the field `k` is copied. -/
def pick {κ : Type w} {σ : Type u} [DecidableEq κ] (k n : κ) (s t : σ) : σ := if k = n then s else t

section Pick

variable {κ : Type w} {σ : Type u} [DecidableEq κ]

@[simp] theorem pick_eq (k : κ) (s t : σ) : pick k k s t = s := if_pos rfl

theorem pick_of_ne {k n : κ} (h : k ≠ n) (s t : σ) : pick k n s t = t := if_neg h

@[simp] theorem pick_self (k n : κ) (s : σ) : pick k n s s = s := ite_self s

@[simp] theorem pick_pick (k n : κ) (s t u : σ) :
    pick k n s (pick k n t u) = pick k n s u := by
  unfold pick
  split <;> rfl

theorem pick_comm {k l : κ} (h : k ≠ l) (n : κ) (s t u : σ) :
    pick k n s (pick l n t u) = pick l n t (pick k n s u) := by
  by_cases hk : k = n
  · have hl : l ≠ n := fun hl => h (hk.trans hl.symm)
    rw [pick_of_ne hl, pick_of_ne hl]
  · rw [pick_of_ne hk, pick_of_ne hk]

end Pick

namespace Fields

variable {σ : Type u} {α : Type v} {κ : Type w} (F : Fields κ σ)

/-- The values differ at most in the field. -/
def SameOutside (k : κ) (s t : σ) : Prop := F.copy k t s = t

/-- Every step writes the field that belongs to it, and its value there depends on nothing. -/
def Written (step : σ → α → Option σ) (target : α → κ) : Prop :=
  ∀ s x t, step s x = some t → ∀ u, step u x = some (F.copy (target x) t u)

variable {F}

theorem SameOutside.refl (k : κ) (s : σ) : F.SameOutside k s s := F.copy_self k s

theorem SameOutside.symm {k : κ} {s t : σ} (h : F.SameOutside k s t) : F.SameOutside k t s := by
  rw [SameOutside, ← h, F.copy_copy, F.copy_self]

theorem SameOutside.trans {k : κ} {s t u : σ} (h : F.SameOutside k s t)
    (h' : F.SameOutside k t u) : F.SameOutside k s u := by
  have hcopy : F.copy k u (F.copy k t s) = u := by
    rw [h]
    exact h'
  rwa [F.copy_copy] at hcopy

variable {step : σ → α → Option σ} {target : α → κ}

theorem Written.sameOutside (h : F.Written step target) {s t : σ} {x : α}
    (hstep : step s x = some t) : F.SameOutside (target x) s t :=
  Option.some.inj ((h s x t hstep s).symm.trans hstep)

/-- Whether a step is possible does not depend on the state. -/
theorem Written.none (h : F.Written step target) {s : σ} {x : α} (hstep : step s x = none)
    (t : σ) : step t x = none := by
  by_contra hcontra
  obtain ⟨u, hu⟩ := Option.ne_none_iff_exists'.mp hcontra
  simp [h t x u hu s] at hstep

/-- Steps that write different fields commute. -/
theorem Written.swaps (h : F.Written step target) {x y : α} (hne : target x ≠ target y) :
    Swaps step x y := by
  intro s
  cases hx : step s x with
  | none => cases hy : step s y with
    | none => rfl
    | some t => simp [h.none hx t]
  | some t => cases hy : step s y with
    | none => simp [h.none hy t]
    | some u =>
      rw [Option.bind_some, Option.bind_some, h s y u hy t, h s x t hx u]
      have ht : F.copy (target x) t s = t := h.sameOutside hx
      have hu : F.copy (target y) u s = u := h.sameOutside hy
      have hcomm := F.copy_comm hne t u s
      rw [ht, hu] at hcomm
      rw [hcomm]

/-- A run is possible if each of its steps is. -/
theorem Written.isSome_runSteps (h : F.Written step target) {xs : List α} (s : σ) :
    (runSteps step s xs).isSome = true ↔ ∀ x ∈ xs, (step s x).isSome = true := by
  have heverywhere : ∀ s t x, (step s x).isSome = (step t x).isSome := by
    intro s t x
    cases hx : step s x with
    | none => rw [h.none hx t]
    | some u => simp [h s x u hx t]
  induction xs generalizing s with
  | nil => simp
  | cons x xs ih =>
    rw [runSteps_cons, List.forall_mem_cons]
    cases hx : step s x with
    | none => simp
    | some t => simp [ih t, heverywhere t s]

/-- Steps that write one field change nothing outside of it. -/
theorem Written.sameOutside_run (h : F.Written step target) {k : κ} {xs : List α}
    (htarget : ∀ x ∈ xs, target x = k) {s t : σ} (hrun : runSteps step s xs = some t) :
    F.SameOutside k s t := by
  induction xs generalizing s with
  | nil =>
    obtain rfl := Option.some.inj hrun
    exact .refl k s
  | cons x xs ih =>
    obtain ⟨u, hu, hrest⟩ := Option.bind_eq_some_iff.mp hrun
    have hfirst : F.SameOutside k s u := htarget x List.mem_cons_self ▸ h.sameOutside hu
    exact hfirst.trans (ih (fun y hy => htarget y (List.mem_cons_of_mem x hy)) hrest)

variable [DecidableEq κ]

/-- Runs whose steps are the same but for those that write one field end in values that differ
at most there, if the other steps commute with each other. -/
theorem Written.sameOutside_runs (h : F.Written step target) {k : κ} {xs ys : List α}
    (hperm : (xs.filter fun x => !decide (target x = k)).Perm
      (ys.filter fun y => !decide (target y = k)))
    (hswaps : ∀ x ∈ xs, ∀ y ∈ xs, target x ≠ k → target y ≠ k → Swaps step x y) {s t u : σ}
    (hxs : runSteps step s xs = some t) (hys : runSteps step s ys = some u) :
    F.SameOutside k t u := by
  have hsplit : ∀ {zs : List α} {v : σ}, runSteps step s zs = some v → ∃ w,
      runSteps step s (zs.filter fun z => !decide (target z = k)) = some w ∧
        F.SameOutside k w v := by
    intro zs v hrun
    rw [runSteps_partition (fun z => decide (target z = k)), runSteps_append,
      Option.bind_eq_some_iff] at hrun
    · obtain ⟨w, hw, hlast⟩ := hrun
      refine ⟨w, hw, h.sameOutside_run (fun x hx => ?_) hlast⟩
      simpa using (List.mem_filter.mp hx).2
    · intro x _ y _ hx hy
      refine h.swaps ?_
      rw [of_decide_eq_true hx]
      exact Ne.symm (of_decide_eq_false hy)
  obtain ⟨w, hw, hwt⟩ := hsplit hxs
  obtain ⟨w', hw', hwu⟩ := hsplit hys
  rw [runSteps_perm hperm ?_, hw'] at hw
  · obtain rfl := Option.some.inj hw
    exact hwt.symm.trans hwu
  · intro x hx y hy
    obtain ⟨hxmem, hxne⟩ := List.mem_filter.mp hx
    obtain ⟨hymem, hyne⟩ := List.mem_filter.mp hy
    exact hswaps x hxmem y hymem (by simpa using hxne) (by simpa using hyne)

end Fields

end Fields

end Ctguard
