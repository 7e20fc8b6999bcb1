import Mathlib.Data.List.Basic

/-!
# Streams of blocks

A message that is taken in block by block. What is left is shorter than a block, and it does not
matter in which pieces the message comes.
-/

namespace Ctguard

universe u v

variable {σ : Type u} {β : Type v} (n : ℕ) (f : σ → List β → σ)

/-- The full blocks of a message are taken in, and the rest is kept. -/
def absorb (s : σ) (m : List β) : σ × List β :=
  if 0 < n ∧ n ≤ m.length then absorb (f s (m.take n)) (m.drop n) else (s, m)
termination_by m.length
decreasing_by
  rw [List.length_drop]
  omega

variable {n f} {s : σ} {m : List β}

theorem absorb_short (h : m.length < n) : absorb n f s m = (s, m) := by
  rw [absorb, if_neg (by omega)]

theorem absorb_long (hn : 0 < n) (h : n ≤ m.length) :
    absorb n f s m = absorb n f (f s (m.take n)) (m.drop n) := by
  rw [absorb, if_pos ⟨hn, h⟩]

theorem absorb_block (hn : 0 < n) (h : m.length = n) : absorb n f s m = (f s m, []) := by
  rw [absorb_long hn (by omega), List.take_of_length_le (by omega),
    List.drop_of_length_le (by omega), absorb_short (by simpa using hn)]

theorem length_absorb (hn : 0 < n) : (absorb n f s m).2.length = m.length % n := by
  induction s, m using absorb.induct n f with
  | case1 s m h ih =>
    rw [absorb_long hn h.2, ih, List.length_drop, ← Nat.mod_eq_sub_mod h.2]
  | case2 s m h =>
    rw [absorb_short (by omega), Nat.mod_eq_of_lt (by omega)]

/-- What comes behind is taken in together with what was left. -/
theorem absorb_append (hn : 0 < n) (m' : List β) :
    absorb n f s (m ++ m') = absorb n f (absorb n f s m).1 ((absorb n f s m).2 ++ m') := by
  induction s, m using absorb.induct n f with
  | case1 s m h ih =>
    have hlong : n ≤ (m ++ m').length := by
      rw [List.length_append]
      omega
    rw [absorb_long hn h.2, ← ih, absorb_long hn hlong, List.take_append_of_le_length h.2,
      List.drop_append_of_le_length h.2]
  | case2 s m h => rw [absorb_short (m := m) (by omega)]

end Ctguard
