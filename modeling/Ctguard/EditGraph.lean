import Mathlib.Data.Int.Init
import Mathlib.Data.Int.Order.Basic

/-!
# Edit graphs

The grid of two sequences. A step to the right deletes an element of the first sequence, a step
down adds one of the second, and a diagonal step keeps an element that both have. On a diagonal,
the point that lies furthest among those reached with a number of deletions follows from the
furthest ones of the two neighbours: go there by a single step, and slide down from the further
end.
-/

namespace Ctguard

/-- The grid. The elements behind `x` and behind `y` are the same. -/
structure EditGraph where
  width : ℤ
  height : ℤ
  width_nonneg : 0 ≤ width
  height_nonneg : 0 ≤ height
  same : ℤ → ℤ → Prop
  inside : ∀ x y, same x y → 0 ≤ x ∧ x < width ∧ 0 ≤ y ∧ y < height

namespace EditGraph

variable (g : EditGraph)

/-- A point is reached from the origin with a number of deletions. -/
inductive Reaches : ℤ → ℤ → ℤ → Prop
  | origin : Reaches 0 0 0
  | delete {d x y : ℤ} (h : Reaches d x y) (hx : x < g.width) : Reaches (d + 1) (x + 1) y
  | add {d x y : ℤ} (h : Reaches d x y) (hy : y < g.height) : Reaches d x (y + 1)
  | common {d x y : ℤ} (h : Reaches d x y) (hsame : g.same x y) : Reaches d (x + 1) (y + 1)

/-- The row `y` of the diagonal `k` is reached with at most `c` deletions. -/
def Within (c k y : ℤ) : Prop := ∃ d ≤ c, g.Reaches d (y - k) y

/-- The diagonal is not reached. -/
def Unreached (c k : ℤ) : Prop := ∀ y, ¬ g.Within c k y

/-- The elements are the same all the way down the diagonal. -/
def Slides (k s t : ℤ) : Prop := s ≤ t ∧ ∀ y, s ≤ y → y < t → g.same (y - k) y

/-- The diagonal on which the grid ends. -/
def delta : ℤ := g.height - g.width

variable {g} {c d k s t x y : ℤ}

theorem Reaches.bounds (h : g.Reaches d x y) :
    0 ≤ x ∧ x ≤ g.width ∧ 0 ≤ y ∧ y ≤ g.height ∧ 0 ≤ d ∧ x - y ≤ d := by
  have hwidth := g.width_nonneg
  have hheight := g.height_nonneg
  induction h with
  | origin => omega
  | delete _ hx ih => omega
  | add _ hy ih => omega
  | common _ hsame ih =>
    have hinside := g.inside _ _ hsame
    omega

theorem Reaches.slide (h : g.Reaches d (s - k) s) (hslide : g.Slides k s t) :
    g.Reaches d (t - k) t := by
  obtain ⟨hle, hsame⟩ := hslide
  induction t, hle using Int.leInduction with
  | base => exact h
  | succ t hst ih =>
    have hreach := ih fun y hy hlt => hsame y hy (by omega)
    have hnext := Reaches.common hreach (hsame t hst (by omega))
    rwa [show t - k + 1 = t + 1 - k by omega] at hnext

theorem Within.mono (h : g.Within c k y) {c' : ℤ} (hle : c ≤ c') : g.Within c' k y := by
  obtain ⟨d, hd, hreach⟩ := h
  exact ⟨d, by omega, hreach⟩

theorem Within.bounds (h : g.Within c k y) :
    0 ≤ y - k ∧ y - k ≤ g.width ∧ 0 ≤ y ∧ y ≤ g.height ∧ 0 ≤ c ∧ -k ≤ c := by
  obtain ⟨d, hd, hreach⟩ := h
  have hbounds := hreach.bounds
  omega

/-- A diagonal needs deletions if it lies to the right. -/
theorem unreached_of_lt (h : c < max 0 (-k)) : g.Unreached c k := by
  intro y hy
  have hbounds := hy.bounds
  omega

theorem within_of_room (hc : 0 ≤ c) (hk : -k ≤ c) (hwidth : -k ≤ g.width)
    (hheight : k ≤ g.height) : g.Within c k (max 0 k) := by
  have hzero := g.width_nonneg
  rcases Int.le_total 0 k with hpos | hneg
  · -- down the left side
    have hside : ∀ y, 0 ≤ y → y ≤ g.height → g.Reaches 0 0 y := by
      intro y hy
      induction y, hy using Int.leInduction with
      | base => exact fun _ => .origin
      | succ y hy ih => exact fun hle => .add (ih (by omega)) (by omega)
    refine ⟨0, hc, ?_⟩
    rw [max_eq_right hpos, Int.sub_self]
    exact hside k hpos hheight
  · have htop : ∀ x, 0 ≤ x → x ≤ g.width → g.Reaches x x 0 := by
      intro x hx
      induction x, hx using Int.leInduction with
      | base => exact fun _ => .origin
      | succ x hx ih => exact fun hle => .delete (ih (by omega)) (by omega)
    refine ⟨-k, hk, ?_⟩
    rw [max_eq_left hneg, Int.zero_sub]
    exact htop (-k) (by omega) hwidth

/-- The last step that leaves the diagonal comes from one of its neighbours. -/
theorem Within.neighbour (h : g.Within c k y) : (k = 0 ∧ 0 ≤ c) ∨
    (∃ y', g.Within c (k - 1) y') ∨ ∃ y', g.Within (c - 1) (k + 1) y' := by
  obtain ⟨d, hd, hreach⟩ := h
  generalize hx : y - k = x at hreach
  induction hreach with
  | origin => exact .inl ⟨by omega, hd⟩
  | @delete d x y h _ _ => exact .inr (.inr ⟨y, d, by omega, by rwa [show y - (k + 1) = x by omega]⟩)
  | @add d x y h _ _ => exact .inr (.inl ⟨y, d, hd, by rwa [show y - (k - 1) = x by omega]⟩)
  | common _ _ ih => exact ih hd (by omega)

/-- Nothing lies further than the end of the slide. -/
theorem le_of_slide (hadd : ∀ y, g.Within c (k - 1) y → y + 1 ≤ s)
    (hdelete : ∀ y, g.Within (c - 1) (k + 1) y → y ≤ s) (horigin : k = 0 → 0 ≤ s)
    (hslide : g.Slides k s t) (hstop : ¬ g.same (t - k) t) (h : g.Within c k y) : y ≤ t := by
  have hst := hslide.1
  obtain ⟨d, hd, hreach⟩ := h
  generalize hx : y - k = x at hreach
  induction hreach with
  | origin =>
    have hzero := horigin (by omega)
    omega
  | @delete d x y h _ _ =>
    have hle := hdelete y ⟨d, by omega, by rwa [show y - (k + 1) = x by omega]⟩
    omega
  | @add d x y h _ _ =>
    have hle := hadd y ⟨d, hd, by rwa [show y - (k - 1) = x by omega]⟩
    omega
  | @common d x y _ hsame ih =>
    have hle := ih hd (by omega)
    -- the slide would not have stopped here
    have hne : y ≠ t := by
      rintro rfl
      exact hstop (by rwa [show y - k = x by omega])
    omega

/-- At the right border, what is left is added. -/
theorem Reaches.addRest (h : g.Reaches d g.width y) : g.Reaches d g.width g.height := by
  have hbounds := h.bounds
  have hrows : ∀ z, y ≤ z → z ≤ g.height → g.Reaches d g.width z := by
    intro z hz
    induction z, hz using Int.leInduction with
    | base => exact fun _ => h
    | succ z _ ih => exact fun hle => .add (ih (by omega)) (by omega)
  exact hrows g.height (by omega) (by omega)

/-- At the lower border, what is left is deleted. -/
theorem Reaches.deleteRest (h : g.Reaches d x g.height) :
    g.Reaches (d + (g.width - x)) g.width g.height := by
  have hbounds := h.bounds
  have hcolumns : ∀ z, x ≤ z → z ≤ g.width → g.Reaches (d + (z - x)) z g.height := by
    intro z hz
    induction z, hz using Int.leInduction with
    | base => exact fun _ => by simpa using h
    | succ z _ ih =>
      intro hle
      have hnext := Reaches.delete (ih (by omega)) (by omega)
      rwa [show d + (z - x) + 1 = d + (z + 1 - x) by omega] at hnext
  exact hcolumns g.width (by omega) (by omega)

variable (g) in
/-- The end is reached with at most `c` deletions. -/
def Ends (c : ℤ) : Prop := g.Within c g.delta g.height

theorem ends_iff : g.Ends c ↔ ∃ d ≤ c, g.Reaches d g.width g.height := by
  rw [Ends, Within, delta, Int.sub_sub_self]

/-- As long as the end is not reached, nothing touches the right border. -/
theorem Within.lt_width (h : g.Within c k y) (hends : ¬ g.Ends c) : y - k < g.width := by
  have hbounds := h.bounds
  obtain ⟨d, hd, hreach⟩ := h
  by_contra hnot
  rw [show y - k = g.width by omega] at hreach
  exact hends (ends_iff.mpr ⟨d, hd, hreach.addRest⟩)

/-- Nor does it touch the lower border, with as many deletions to spare as the diagonal needs. -/
theorem Within.lt_height (h : g.Within (c - (k - g.delta)) k y) (hends : ¬ g.Ends c) :
    y < g.height := by
  have hbounds := h.bounds
  obtain ⟨d, hd, hreach⟩ := h
  by_contra hnot
  obtain rfl : y = g.height := by omega
  refine hends (ends_iff.mpr ⟨_, ?_, hreach.deleteRest⟩)
  rw [delta] at hd
  omega

/-- All of the first sequence can be deleted. -/
theorem ends_width : g.Ends g.width := by
  have hwidth := g.width_nonneg
  have hheight := g.height_nonneg
  have hcorner : g.Within g.width (-g.width) 0 := by
    have h := within_of_room (g := g) (k := -g.width) hwidth (by omega) (by omega) (by omega)
    rwa [max_eq_left (by omega)] at h
  obtain ⟨d, hd, hreach⟩ := hcorner
  rw [show (0 : ℤ) - -g.width = g.width by omega] at hreach
  exact ends_iff.mpr ⟨d, hd, hreach.addRest⟩

theorem Ends.mono (h : g.Ends c) {c' : ℤ} (hle : c ≤ c') : g.Ends c' := Within.mono h hle

end EditGraph

end Ctguard
