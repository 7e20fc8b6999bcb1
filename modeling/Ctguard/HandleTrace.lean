import Mathlib.Data.Multiset.AddSub
import Mathlib.Data.Multiset.Filter

/-!
# Acquiring and releasing handles

A trace says in order which handles are acquired and released. Those held at its end are a
multiset, so that a handle that is acquired once more, while it is held, counts twice. What is
held besides does not matter to a trace that accounts for its own handles.
-/

namespace Ctguard.HandleTrace

universe u v

variable {α : Type u} [DecidableEq α]

inductive Event (α : Type u) where
  | acquire (a : α)
  | release (a : α)

def held (m : Multiset α) : List (Event α) → Multiset α
  | [] => m
  | .acquire a :: es => held (a ::ₘ m) es
  | .release a :: es => held (m.erase a) es

@[simp] theorem held_nil (m : Multiset α) : held m [] = m := rfl

@[simp] theorem held_acquire (m : Multiset α) (a : α) (es : List (Event α)) :
    held m (.acquire a :: es) = held (a ::ₘ m) es := rfl

@[simp] theorem held_release (m : Multiset α) (a : α) (es : List (Event α)) :
    held (a ::ₘ m) (.release a :: es) = held m es := by
  rw [held, Multiset.erase_cons_head]

theorem held_append (m : Multiset α) (es fs : List (Event α)) :
    held m (es ++ fs) = held (held m es) fs := by
  induction es generalizing m with
  | nil => rfl
  | cons e es ih => cases e <;> exact ih _

/-- The trace turns the handles `m` into `n`, whatever else is held. -/
def Turns (m n : Multiset α) (es : List (Event α)) : Prop := ∀ k, held (m + k) es = n + k

theorem Turns.append {m n k : Multiset α} {es fs : List (Event α)} (h : Turns m n es)
    (h' : Turns n k fs) : Turns m k (es ++ fs) := by
  intro l
  rw [held_append, h l, h' l]

theorem turns_nil (m : Multiset α) : Turns m m [] := fun _ => rfl

theorem Turns.acquire {m n : Multiset α} {a : α} {es : List (Event α)}
    (h : Turns (a ::ₘ m) n es) : Turns m n (.acquire a :: es) := by
  intro k
  rw [held_acquire, ← Multiset.cons_add, h k]

theorem Turns.release {m n : Multiset α} {a : α} {es : List (Event α)} (h : Turns m n es) :
    Turns (a ::ₘ m) n (.release a :: es) := by
  intro k
  rw [Multiset.cons_add, held_release, h k]

theorem Turns.add {m n : Multiset α} {es : List (Event α)} (h : Turns m n es) (k : Multiset α) :
    Turns (m + k) (n + k) es := by
  intro l
  rw [Multiset.add_assoc, h, Multiset.add_assoc]

theorem Turns.held {m n : Multiset α} {es : List (Event α)} (h : Turns m n es) :
    held m es = n := by
  have hzero := h 0
  simpa using hzero

end Ctguard.HandleTrace
