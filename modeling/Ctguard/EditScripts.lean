import Ctguard.EditGraph
import Mathlib.Data.List.Infix

/-!
# Edit scripts

A script deletes, adds and keeps elements. It has a side before and a side after; a script for two
sequences is a way through their grid, and the number of its changes is told by its deletions.
-/

namespace Ctguard

universe u

inductive Edit (α : Type u) where
  | delete (e : α)
  | add (e : α)
  | common (e : α)
  deriving DecidableEq, Repr

namespace Edit

variable {α : Type u}

def before : List (Edit α) → List α
  | [] => []
  | .delete e :: s => e :: before s
  | .add _ :: s => before s
  | .common e :: s => e :: before s

def after : List (Edit α) → List α
  | [] => []
  | .delete _ :: s => after s
  | .add e :: s => e :: after s
  | .common e :: s => e :: after s

/-- The number of elements that are deleted. -/
def deletions : List (Edit α) → ℕ
  | [] => 0
  | .delete _ :: s => deletions s + 1
  | .add _ :: s => deletions s
  | .common _ :: s => deletions s

/-- The number of elements that are deleted or added. -/
def changes : List (Edit α) → ℕ
  | [] => 0
  | .delete _ :: s => changes s + 1
  | .add _ :: s => changes s + 1
  | .common _ :: s => changes s

/-- The edit the other way around. -/
def flip : Edit α → Edit α
  | .delete e => .add e
  | .add e => .delete e
  | .common e => .common e

variable (s t : List (Edit α))

@[simp] theorem before_append : before (s ++ t) = before s ++ before t := by
  induction s with
  | nil => rfl
  | cons e s ih => cases e <;> simp [before, ih]

@[simp] theorem after_append : after (s ++ t) = after s ++ after t := by
  induction s with
  | nil => rfl
  | cons e s ih => cases e <;> simp [after, ih]

@[simp] theorem deletions_append : deletions (s ++ t) = deletions s + deletions t := by
  induction s with
  | nil => simp [deletions]
  | cons e s ih =>
    cases e <;> simp only [List.cons_append, deletions, ih]
    omega

@[simp] theorem changes_append : changes (s ++ t) = changes s + changes t := by
  induction s with
  | nil => simp [changes]
  | cons e s ih =>
    cases e <;> simp only [List.cons_append, changes, ih]
    all_goals omega

@[simp] theorem before_flip : before (s.map flip) = after s := by
  induction s with
  | nil => rfl
  | cons e s ih => cases e <;> simp [before, after, flip, ih]

@[simp] theorem after_flip : after (s.map flip) = before s := by
  induction s with
  | nil => rfl
  | cons e s ih => cases e <;> simp [before, after, flip, ih]

@[simp] theorem changes_flip : changes (s.map flip) = changes s := by
  induction s with
  | nil => rfl
  | cons e s ih => cases e <;> simp [changes, flip, ih]

@[simp] theorem flip_flip (e : Edit α) : e.flip.flip = e := by cases e <;> rfl

@[simp] theorem before_delete (l : List α) : before (l.map .delete) = l := by
  induction l with
  | nil => rfl
  | cons e l ih => simp [before, ih]

@[simp] theorem after_delete (l : List α) : after (l.map .delete) = [] := by
  induction l with
  | nil => rfl
  | cons e l ih => simpa [after] using ih

/-- How much longer the sequence becomes, and what was deleted, tell the number of changes. -/
theorem changes_eq :
    changes s + (before s).length = (after s).length + 2 * deletions s := by
  induction s with
  | nil => rfl
  | cons e s ih =>
    cases e <;> simp only [changes, before, after, deletions, List.length_cons]
    all_goals omega

/-- Everything is deleted, and everything is added. -/
def replacement (a b : List α) : List (Edit α) := a.map .delete ++ (b.map .delete).map flip

theorem before_replacement (a b : List α) : before (replacement a b) = a := by
  simp [replacement, -List.map_map]

theorem after_replacement (a b : List α) : after (replacement a b) = b := by
  simp [replacement, -List.map_map]

theorem changes_replacement (a b : List α) : changes (replacement a b) = a.length + b.length := by
  have hdelete : ∀ l : List α, changes (l.map .delete) = l.length := by
    intro l
    induction l with
    | nil => rfl
    | cons e l ih => simp [changes, ih]
  rw [replacement, changes_append, changes_flip, hdelete, hdelete]

variable {s} {a b : List α}

/-- The grid of two lists. -/
def graph (a b : List α) : EditGraph where
  width := a.length
  height := b.length
  width_nonneg := Int.natCast_nonneg _
  height_nonneg := Int.natCast_nonneg _
  same x y := ∃ (i j : ℕ) (e : α), x = i ∧ y = j ∧ a[i]? = some e ∧ b[j]? = some e
  inside := by
    rintro x y ⟨i, j, e, rfl, rfl, hi, hj⟩
    have hilt := (List.getElem?_eq_some_iff.mp hi).1
    have hjlt := (List.getElem?_eq_some_iff.mp hj).1
    omega

theorem graph_same {i j : ℕ} :
    (graph a b).same i j ↔ ∃ e, a[i]? = some e ∧ b[j]? = some e := by
  constructor
  · rintro ⟨i', j', e, hi, hj, hsame⟩
    rw [Int.natCast_inj] at hi hj
    exact ⟨e, by rwa [hi, hj]⟩
  · rintro ⟨e, hsame⟩
    exact ⟨i, j, e, rfl, rfl, hsame⟩

/-- A script is a way through the grid. -/
theorem reaches_of_prefix (hbefore : before s <+: a) (hafter : after s <+: b) :
    (graph a b).Reaches (deletions s) (before s).length (after s).length := by
  induction s using List.reverseRecOn with
  | nil => exact .origin
  | append_singleton s e ih =>
    rw [before_append] at hbefore ⊢
    rw [after_append] at hafter ⊢
    have hreach := ih ((List.prefix_append _ _).trans hbefore) ((List.prefix_append _ _).trans hafter)
    rw [deletions_append]
    cases e with
    | delete e =>
      have hlt : (before s).length < a.length := by
        have hle := hbefore.length_le
        simp only [before, List.length_append, List.length_cons, List.length_nil] at hle
        omega
      simpa [before, after, deletions] using
        EditGraph.Reaches.delete hreach (Int.ofNat_lt.mpr hlt)
    | add e =>
      have hlt : (after s).length < b.length := by
        have hle := hafter.length_le
        simp only [after, List.length_append, List.length_cons, List.length_nil] at hle
        omega
      simpa [before, after, deletions] using EditGraph.Reaches.add hreach (Int.ofNat_lt.mpr hlt)
    | common e =>
      have hx : a[(before s).length]? = some e := by
        obtain ⟨rest, rfl⟩ := hbefore
        simp [before]
      have hy : b[(after s).length]? = some e := by
        obtain ⟨rest, rfl⟩ := hafter
        simp [after]
      simpa [before, after, deletions] using
        EditGraph.Reaches.common hreach (graph_same.mpr ⟨e, hx, hy⟩)

theorem graph_ends (s : List (Edit α)) : (graph (before s) (after s)).Ends (deletions s) := by
  rw [EditGraph.ends_iff]
  exact ⟨_, le_refl _, reaches_of_prefix List.prefix_rfl List.prefix_rfl⟩

end Edit

end Ctguard
