import Ctguard.Sha256
import Mathlib.Data.Fin.VecNotation
import Mathlib.Data.Fintype.Basic

/-!
# The unrolled transformation

With `SHA2_UNROLL_TRANSFORM`, the variables of a transformation keep their values, and it is the
lines of the code that change their parts: each line is a macro, called with the variables in an
order of its own. After eight lines, the order is the first one again.
-/

namespace Ctguard.Sha2

/-- The variables, `a` to `h`. -/
abbrev Variables := Fin 8 → UInt32

/-- The variables of the unrolled loops, with the words and the number of the round. -/
structure Unrolled where
  v : Variables
  w256 : ℕ → UInt32
  j : ℕ

/-- What a macro does, with the variables in some order, before it counts the round. -/
abbrev Macro := (a b c d e f g h : Fin 8) → ℕ → Variables × (ℕ → UInt32) →
  Variables × (ℕ → UInt32)

/-- The variables in both macros, of which two are changed. -/
def turn (a b c d e f g h : Fin 8) (j : ℕ) (w : UInt32) (v : Variables) : Variables :=
  let t1 := v h + bigSigma1 (v e) + ch (v e) (v f) (v g) + constant j + w
  let v := Function.update v d (v d + t1)
  Function.update v h (t1 + bigSigma0 (v a) + maj (v a) (v b) (v c))

/-- `ROUND256_0_TO_15`. -/
def round256To15 (data : Data) : Macro := fun a b c d e f g h j s =>
  let w256 := Function.update s.2 j (reverse32 (data.word s.2 j))
  (turn a b c d e f g h j (w256 j) s.1, w256)

/-- `ROUND256`. -/
def round256 : Macro := fun a b c d e f g h j s =>
  let s0 := sigma0 (s.2 ((j + 1) &&& 0x0f))
  let s1 := sigma1 (s.2 ((j + 14) &&& 0x0f))
  let w256 := Function.update s.2 (j &&& 0x0f)
    (s.2 (j &&& 0x0f) + (s1 + s.2 ((j + 9) &&& 0x0f) + s0))
  (turn a b c d e f g h j (w256 (j &&& 0x0f)) s.1, w256)

def Macro.call (m : Macro) (a b c d e f g h : Fin 8) (s : Unrolled) : Unrolled :=
  let r := m a b c d e f g h s.j (s.v, s.w256)
  ⟨r.1, r.2, s.j + 1⟩

/-- The lines of a loop. -/
def Macro.lines (m : Macro) (s : Unrolled) : Unrolled :=
  let s := m.call 0 1 2 3 4 5 6 7 s
  let s := m.call 7 0 1 2 3 4 5 6 s
  let s := m.call 6 7 0 1 2 3 4 5 s
  let s := m.call 5 6 7 0 1 2 3 4 s
  let s := m.call 4 5 6 7 0 1 2 3 s
  let s := m.call 3 4 5 6 7 0 1 2 s
  let s := m.call 2 3 4 5 6 7 0 1 s
  m.call 1 2 3 4 5 6 7 0 s

theorem Macro.lines_j (m : Macro) (s : Unrolled) : (m.lines s).j = s.j + 8 := rfl

/-- `do` the lines, `while` there are rounds left. -/
def Macro.loop (m : Macro) (rounds : ℕ) (s : Unrolled) : Unrolled :=
  if (m.lines s).j < rounds then m.loop rounds (m.lines s) else m.lines s
termination_by rounds - s.j
decreasing_by
  rw [m.lines_j] at *
  omega

def Registers.variables (r : Registers) : Variables :=
  ![r.a, r.b, r.c, r.d, r.e, r.f, r.g, r.h]

/-- The part of each variable, after so many lines. -/
def arranged (k : Fin 8) (v : Variables) : Registers :=
  ⟨v (0 - k), v (1 - k), v (2 - k), v (3 - k), v (4 - k), v (5 - k), v (6 - k), v (7 - k)⟩

/-- `SHA256_Transform`, unrolled. -/
def transformUnrolled (data : Data) (context : Context) : Context :=
  let s := (round256To15 data).loop 16
    ⟨context.state.variables, loadWord context.buffer, 0⟩
  let s := round256.loop 64 s
  { context with
    state := context.state.add (arranged 0 s.v),
    buffer := (List.range 16).flatMap fun j => storeWord (s.w256 j) }

section Lines

/-- A line takes the variable in front of the one that the line before it took. -/
theorem part_succ (k : Fin 8) : 0 - (k + 1) = 7 - k ∧ 1 - (k + 1) = 0 - k ∧
    2 - (k + 1) = 1 - k ∧ 3 - (k + 1) = 2 - k ∧ 4 - (k + 1) = 3 - k ∧ 5 - (k + 1) = 4 - k ∧
    6 - (k + 1) = 5 - k ∧ 7 - (k + 1) = 6 - k := by decide +revert

theorem part_ne {i l : Fin 8} (h : i ≠ l) (k : Fin 8) : i - k ≠ l - k := by decide +revert

/-- A part stays when the variable of another one is changed. -/
theorem update_part {i l : Fin 8} (h : i ≠ l) (k : Fin 8) (x : UInt32) (v : Variables) :
    Function.update v (l - k) x (i - k) = v (i - k) :=
  Function.update_of_ne (part_ne h k) x v

/-- Whatever the order is, a macro makes one round. -/
theorem turn_arranged (k : Fin 8) (j : ℕ) (w : UInt32) (v : Variables) :
    arranged (k + 1) (turn (0 - k) (1 - k) (2 - k) (3 - k) (4 - k) (5 - k) (6 - k) (7 - k) j w v) =
      (arranged k v).round j w := by
  obtain ⟨ha, hb, hc, hd, he, hf, hg, hh⟩ := part_succ k
  rw [arranged, ha, hb, hc, hd, he, hf, hg, hh]
  -- of the eight parts, only the fourth and the last one are changed
  simp (disch := decide) only [turn, update_part, Function.update_self]
  simp only [arranged, Registers.round, UInt32.add_assoc]

/-- The registers and the words, after so many lines. -/
def Unrolled.plain (k : Fin 8) (s : Unrolled) : Registers × (ℕ → UInt32) :=
  (arranged k s.v, s.w256)

/-- A macro that makes a round of the loop. -/
def Macro.Makes (m : Macro) (f : Registers × (ℕ → UInt32) → ℕ → Registers × (ℕ → UInt32)) : Prop :=
  ∀ k s, (m.call (0 - k) (1 - k) (2 - k) (3 - k) (4 - k) (5 - k) (6 - k) (7 - k) s).plain (k + 1) =
    f (s.plain k) s.j

theorem round256To15_makes (data : Data) : (round256To15 data).Makes (roundTo15 data) := by
  intro k s
  rw [Macro.call, round256To15, Unrolled.plain, turn_arranged]
  rfl

theorem round256_makes : round256.Makes roundFrom16 := by
  intro k s
  rw [Macro.call, round256, Unrolled.plain, turn_arranged]
  rfl

variable {m : Macro} {f : Registers × (ℕ → UInt32) → ℕ → Registers × (ℕ → UInt32)}

/-- Eight lines are eight rounds. -/
theorem Macro.Makes.lines (h : m.Makes f) (s : Unrolled) :
    (m.lines s).plain 0 = (List.range' s.j 8).foldl f (s.plain 0) := by
  have hround : ∀ r, (List.range' s.j 8).foldl f r =
      f (f (f (f (f (f (f (f r s.j) (s.j + 1)) (s.j + 2)) (s.j + 3)) (s.j + 4)) (s.j + 5))
        (s.j + 6)) (s.j + 7) := fun _ => rfl
  rw [hround, Macro.lines]
  refine (h 7 _).trans (congrArg (f · _) ?_)
  refine (h 6 _).trans (congrArg (f · _) ?_)
  refine (h 5 _).trans (congrArg (f · _) ?_)
  refine (h 4 _).trans (congrArg (f · _) ?_)
  refine (h 3 _).trans (congrArg (f · _) ?_)
  refine (h 2 _).trans (congrArg (f · _) ?_)
  refine (h 1 _).trans (congrArg (f · _) ?_)
  exact h 0 s

/-- A loop makes as many rounds as there were left, if these are so many times eight. -/
theorem Macro.Makes.loop (h : m.Makes f) (s : Unrolled) (i : ℕ) :
    (m.loop (s.j + 8 * (i + 1)) s).plain 0 =
        (List.range' s.j (8 * (i + 1))).foldl f (s.plain 0) ∧
      (m.loop (s.j + 8 * (i + 1)) s).j = s.j + 8 * (i + 1) := by
  induction i generalizing s with
  | zero =>
    rw [Macro.loop, m.lines_j, if_neg (by omega)]
    exact ⟨h.lines s, rfl⟩
  | succ i ih =>
    have hrounds : s.j + 8 * (i + 1 + 1) = (m.lines s).j + 8 * (i + 1) := by
      rw [m.lines_j]
      omega
    have hrange : List.range' s.j (8 * (i + 1 + 1)) =
        List.range' s.j 8 ++ List.range' (m.lines s).j (8 * (i + 1)) := by
      rw [m.lines_j, List.range'_append_1]
      congr 1
      omega
    obtain ⟨hplain, hj⟩ := ih (m.lines s)
    rw [Macro.loop, if_pos (by rw [hrounds]; omega), hrounds, hplain, hj, h.lines, hrange,
      List.foldl_append]
    exact ⟨rfl, rfl⟩

/-- The unrolled transformation is the plain one, and leaves the same words behind. -/
theorem transformUnrolled_eq (data : Data) (context : Context) :
    transformUnrolled data context = transform data context := by
  obtain ⟨hfirst, hj⟩ := (round256To15_makes data).loop
    ⟨context.state.variables, loadWord context.buffer, 0⟩ 1
  rw [transformUnrolled, transform]
  generalize hs : (round256To15 data).loop 16
    ⟨context.state.variables, loadWord context.buffer, 0⟩ = s at hfirst hj
  obtain ⟨hrest, -⟩ := round256_makes.loop s 5
  rw [hj] at hrest
  generalize hs' : round256.loop 64 s = s' at hrest
  have hstart : Unrolled.plain 0 ⟨context.state.variables, loadWord context.buffer, 0⟩ =
      (context.state, loadWord context.buffer) := rfl
  rw [hstart] at hfirst
  rw [hfirst] at hrest
  rw [List.range_eq_range', ← hrest]
  rfl

end Lines

end Ctguard.Sha2
