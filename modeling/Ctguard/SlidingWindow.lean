import Mathlib.Data.List.Sort

/-!
# Sliding windows over stamped entries

A store of entries with arrival times, sorted by time. An arrival goes behind all entries
that are not later, and expiry drops entries from the front while they are too old. As
long as the clock does not go back, a store that is only touched in this way is the part
of the whole history that is not too old, in the order of arrival. Without a promise
about the clock it is still sorted, and made of entries of the history.
-/

namespace Ctguard.SlidingWindow

universe u

variable {α : Type u}

/-- The entries that are at most `T` old. -/
def window (T now : ℤ) (entries : List (ℤ × α)) : List (ℤ × α) :=
  entries.filter fun e => now ≤ e.1 + T

def arrive (now : ℤ) (a : α) (entries : List (ℤ × α)) : List (ℤ × α) :=
  entries.orderedInsert (fun a b => a.1 < b.1) (now, a)

def expire (T now : ℤ) (entries : List (ℤ × α)) : List (ℤ × α) :=
  entries.dropWhile fun e => e.1 + T < now

def Sorted (entries : List (ℤ × α)) : Prop := entries.Pairwise fun a b => a.1 ≤ b.1

theorem window_append (T now : ℤ) (xs ys : List (ℤ × α)) :
    window T now (xs ++ ys) = window T now xs ++ window T now ys :=
  List.filter_append xs ys

theorem Sorted.sublist {xs ys : List (ℤ × α)} (h : Sorted ys) (hsub : xs.Sublist ys) :
    Sorted xs :=
  List.Pairwise.sublist hsub h

theorem mem_window {T now : ℤ} {xs : List (ℤ × α)} {e : ℤ × α} :
    e ∈ window T now xs ↔ e ∈ xs ∧ now ≤ e.1 + T := by
  simp [window]

/-- What was too old before is too old later. -/
theorem window_window {T now now' : ℤ} (h : now ≤ now') (xs : List (ℤ × α)) :
    window T now' (window T now xs) = window T now' xs := by
  rw [window, window, window, List.filter_filter]
  apply List.filter_congr
  intro e _
  have hiff : (now' ≤ e.1 + T ∧ now ≤ e.1 + T) ↔ now' ≤ e.1 + T := by omega
  simp only [← Bool.decide_and, hiff]

/-- An arrival at the latest time goes to the end. -/
theorem arrive_eq_append {now : ℤ} {xs : List (ℤ × α)} (h : ∀ e ∈ xs, e.1 ≤ now) (a : α) :
    arrive now a xs = xs ++ [(now, a)] := by
  induction xs with
  | nil => rfl
  | cons x xs ih =>
    obtain ⟨hx, hxs⟩ := List.forall_mem_cons.mp h
    have hnot : ¬ now < x.1 := by omega
    have hrest := ih hxs
    rw [arrive] at hrest ⊢
    simp [List.orderedInsert, hnot, hrest]

theorem arrive_perm (now : ℤ) (a : α) (xs : List (ℤ × α)) :
    (arrive now a xs).Perm ((now, a) :: xs) :=
  List.perm_orderedInsert _ _ _

theorem Sorted.arrive {xs : List (ℤ × α)} (h : Sorted xs) (now : ℤ) (a : α) :
    Sorted (arrive now a xs) := by
  induction xs with
  | nil => exact List.pairwise_singleton _ _
  | cons x xs ih =>
    obtain ⟨hx, hxs⟩ := List.pairwise_cons.mp h
    rw [SlidingWindow.arrive, List.orderedInsert]
    split_ifs with hlt
    · refine List.pairwise_cons.mpr ⟨?_, h⟩
      intro y hy
      rcases List.mem_cons.mp hy with rfl | hy
      · exact Int.le_of_lt hlt
      · exact (Int.le_of_lt hlt).trans (hx y hy)
    · refine List.pairwise_cons.mpr ⟨?_, ih hxs⟩
      intro y hy
      rcases List.mem_cons.mp ((arrive_perm now a xs).mem_iff.mp hy) with rfl | hy
      · exact not_lt.mp hlt
      · exact hx y hy

theorem expire_sublist (T now : ℤ) (xs : List (ℤ × α)) : (expire T now xs).Sublist xs :=
  List.dropWhile_sublist _

/-- Of a sorted store exactly the entries that are too old expire. -/
theorem expire_eq_window {xs : List (ℤ × α)} (h : Sorted xs) (T now : ℤ) :
    expire T now xs = window T now xs := by
  induction xs with
  | nil => rfl
  | cons x xs ih =>
    obtain ⟨hx, hxs⟩ := List.pairwise_cons.mp h
    rw [expire, window]
    by_cases hold : x.1 + T < now
    · have hnot : ¬ now ≤ x.1 + T := by omega
      have hrest := ih hxs
      rw [expire, window] at hrest
      simp [hold, hrest]
    · have hall : ∀ e ∈ x :: xs, now ≤ e.1 + T := by
        intro e he
        rcases List.mem_cons.mp he with rfl | he
        · omega
        · have hle := hx e he
          omega
      have hfilter : (x :: xs).filter (fun e => now ≤ e.1 + T) = x :: xs := by
        simpa [List.filter_eq_self] using hall
      rw [hfilter]
      simp [hold]

/-- An arrival and expiry leave what is not too old of the store with the arrival. -/
theorem expire_arrive {now : ℤ} {xs : List (ℤ × α)} (hsorted : Sorted xs)
    (hpast : ∀ e ∈ xs, e.1 ≤ now) (T : ℤ) (a : α) :
    expire T now (arrive now a xs) = window T now (xs ++ [(now, a)]) := by
  rw [expire_eq_window (hsorted.arrive now a), arrive_eq_append hpast]

end Ctguard.SlidingWindow
