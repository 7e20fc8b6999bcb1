import Ctguard.ContentDiff

/-!
# The search for a shortest script

After a visit, a diagonal holds the furthest row that can be reached with the deletions of the
round, and the records lead back from there to the origin with no more deletions than that. As
long as the end of the grid is not reached, nothing leaves the grid; so every index is within its
block, and there are no more rounds than lines in the shorter content.
-/

namespace Ctguard.Dtl

variable {α : Type} [DecidableEq α]

section CommonRun

theorem commonRun_same (xs ys : List α) {i : ℕ} (h : i < commonRun xs ys) :
    ∃ e, xs[i]? = some e ∧ ys[i]? = some e := by
  induction xs generalizing ys i with
  | nil => simp [commonRun] at h
  | cons x xs ih =>
    cases ys with
    | nil => simp [commonRun] at h
    | cons y ys =>
      rw [commonRun] at h
      split at h
      · rename_i heq
        cases i with
        | zero => exact ⟨x, rfl, by rw [heq]; rfl⟩
        | succ i => exact ih ys (by omega)
      · omega

theorem commonRun_stops (xs ys : List α) :
    ¬ ∃ e, xs[commonRun xs ys]? = some e ∧ ys[commonRun xs ys]? = some e := by
  induction xs generalizing ys with
  | nil => simp
  | cons x xs ih =>
    cases ys with
    | nil => simp
    | cons y ys =>
      rw [commonRun]
      split
      · exact ih ys
      · rename_i hne
        rintro ⟨e, hx, hy⟩
        cases hx
        cases hy
        exact hne rfl

end CommonRun

namespace Diff

omit [DecidableEq α]

/-- The grid of what is left of the contents. -/
def graph (d : Diff α) : EditGraph := Edit.graph d.a d.b

/-- The row that is known for a diagonal. -/
def row (d : Diff α) (k : ℤ) : ℤ := d.fp.val (k + d.offset)

/-- The last record of a diagonal. -/
def last (d : Diff α) (k : ℤ) : ℤ := d.path.val (k + d.offset)

variable [DecidableEq α] {d : Diff α}

theorem run_slides {k s : ℤ} (hs : 0 ≤ s) (hsk : 0 ≤ s - k) :
    d.graph.Slides k s (s + d.run (s - k) s) ∧
      ¬ d.graph.same (s + d.run (s - k) s - k) (s + d.run (s - k) s) := by
  obtain ⟨j, rfl⟩ := Int.eq_ofNat_of_zero_le hs
  obtain ⟨i, hi⟩ := Int.eq_ofNat_of_zero_le hsk
  rw [hi, run, if_pos ⟨Int.natCast_nonneg i, hs⟩, Int.toNat_natCast, Int.toNat_natCast]
  have hrow : ∀ n : ℕ, d.graph.same ((j : ℤ) + n - k) (j + n) ↔
      ∃ e, (d.a.drop i)[n]? = some e ∧ (d.b.drop j)[n]? = some e := by
    intro n
    rw [List.getElem?_drop, List.getElem?_drop, show (j : ℤ) + n - k = (i + n : ℕ) by omega,
      show (j : ℤ) + n = (j + n : ℕ) by omega]
    exact Edit.graph_same
  refine ⟨⟨by omega, ?_⟩, ?_⟩
  · intro y hy hlt
    obtain ⟨n, hn⟩ := Int.eq_ofNat_of_zero_le (show 0 ≤ y - j by omega)
    obtain rfl : y = j + n := by omega
    exact (hrow n).mpr (commonRun_same _ _ (by omega))
  · rw [hrow]
    exact commonRun_stops _ _

end Diff

/-- A record leads back to the origin, with a number of deletions. -/
inductive Chained (g : EditGraph) (cordinates : List P) : ℕ → ℤ → P → Prop
  | root {i : ℕ} {p : P} (hp : cordinates[i]? = some p) (hk : p.k = -1) (hx : p.y - p.x = 0)
      (hslide : g.Slides 0 0 p.y) : Chained g cordinates i 0 p
  | delete {i j : ℕ} {c : ℤ} {q p : P} (hp : cordinates[i]? = some p) (hk : p.k = j)
      (hji : j < i) (hq : Chained g cordinates j c q) (hx : q.x < g.width)
      (hdiagonal : p.y - p.x = q.y - (q.x + 1)) (hslide : g.Slides (p.y - p.x) q.y p.y) :
      Chained g cordinates i (c + 1) p
  | add {i j : ℕ} {c : ℤ} {q p : P} (hp : cordinates[i]? = some p) (hk : p.k = j)
      (hji : j < i) (hq : Chained g cordinates j c q) (hy : q.y < g.height)
      (hdiagonal : p.y - p.x = q.y + 1 - q.x) (hslide : g.Slides (p.y - p.x) (q.y + 1) p.y) :
      Chained g cordinates i c p

section Chained

variable {g : EditGraph} {cordinates : List P} {i : ℕ} {c : ℤ} {p : P}

theorem Chained.getElem (h : Chained g cordinates i c p) : cordinates[i]? = some p := by
  cases h with
  | root hp | delete hp | add hp => exact hp

theorem Chained.append (h : Chained g cordinates i c p) (more : List P) :
    Chained g (cordinates ++ more) i c p := by
  have hkeep : ∀ {i : ℕ} {p : P}, cordinates[i]? = some p →
      (cordinates ++ more)[i]? = some p := by
    intro i p hp
    rw [List.getElem?_append_left (List.getElem?_eq_some_iff.mp hp).1, hp]
  induction h with
  | root hp hk hx hslide => exact .root (hkeep hp) hk hx hslide
  | delete hp hk hji _ hx hdiagonal hslide ih =>
    exact .delete (hkeep hp) hk hji ih hx hdiagonal hslide
  | add hp hk hji _ hy hdiagonal hslide ih =>
    exact .add (hkeep hp) hk hji ih hy hdiagonal hslide

theorem Chained.reaches (h : Chained g cordinates i c p) : g.Reaches c p.x p.y := by
  induction h with
  | @root i p _ _ hx hslide =>
    have hreach := EditGraph.Reaches.slide (g := g) (d := 0) (by simpa using .origin) hslide
    rwa [show p.y - 0 = p.x by omega] at hreach
  | @delete i j c q p _ _ _ _ hx hdiagonal hslide ih =>
    have hstart := EditGraph.Reaches.delete ih hx
    rw [show q.x + 1 = q.y - (p.y - p.x) by omega] at hstart
    have hreach := hstart.slide hslide
    rwa [Int.sub_sub_self] at hreach
  | @add i j c q p _ _ _ _ hy hdiagonal hslide ih =>
    have hstart := EditGraph.Reaches.add ih hy
    rw [show q.x = q.y + 1 - (p.y - p.x) by omega] at hstart
    have hreach := hstart.slide hslide
    rwa [Int.sub_sub_self] at hreach

end Chained

namespace Diff

omit [DecidableEq α]

/-- What is known about a diagonal is right for so many deletions. -/
def Known (d : Diff α) (c k : ℤ) : Prop :=
  (d.row k = -1 ∧ d.last k = -1 ∧ d.graph.Unreached c k) ∨
    ∃ (i : ℕ) (c' : ℤ) (p : P), d.last k = i ∧ c' ≤ c ∧
      Chained d.graph d.pathCordinates i c' p ∧ p.y - p.x = k ∧ p.y = d.row k ∧
        ∀ y, d.graph.Within c k y → y ≤ d.row k

variable {d : Diff α} {c k : ℤ}

theorem Known.le_row (h : d.Known c k) {y : ℤ} (hy : d.graph.Within c k y) : y ≤ d.row k := by
  rcases h with ⟨-, -, hnone⟩ | ⟨_, _, _, _, _, _, _, _, hfurthest⟩
  · exact absurd hy (hnone y)
  · exact hfurthest y hy

theorem Known.cases (h : d.Known c k) : (d.row k = -1 ∧ d.last k = -1 ∧ d.graph.Unreached c k) ∨
    ∃ (i : ℕ) (c' : ℤ) (p : P), d.last k = i ∧ c' ≤ c ∧ Chained d.graph d.pathCordinates i c' p ∧
      p.y - p.x = k ∧ p.y = d.row k ∧ 0 ≤ p.x ∧ 0 ≤ p.y ∧ d.graph.Within c k p.y := by
  rcases h with h | ⟨i, c', p, hlast, hc', hchain, hk, hrow, -⟩
  · exact .inl h
  · have hbounds := hchain.reaches.bounds
    refine .inr ⟨i, c', p, hlast, hc', hchain, hk, hrow, hbounds.1, hbounds.2.2.1, c', hc', ?_⟩
    rw [← hk, Int.sub_sub_self]
    exact hchain.reaches

/-- A new record is chained to that of the neighbour which lies further. -/
theorem exists_chained (hbefore : d.Known c (k - 1)) (hbehind : d.Known (c - 1) (k + 1))
    (hadd : ∀ y, d.graph.Within c (k - 1) y → y < d.graph.height)
    (hdelete : ∀ y, d.graph.Within (c - 1) (k + 1) y → y - (k + 1) < d.graph.width)
    (hsome : ∃ y, d.graph.Within c k y) :
    let s := max (d.row (k - 1) + 1) (d.row (k + 1))
    let r := if d.row (k + 1) < d.row (k - 1) + 1 then d.last (k - 1) else d.last (k + 1)
    0 ≤ s ∧ 0 ≤ s - k ∧ ∀ t, d.graph.Slides k s t → ∃ c' ≤ c,
      Chained d.graph (d.pathCordinates ++ [⟨t - k, t, r⟩]) d.pathCordinates.length c'
        ⟨t - k, t, r⟩ := by
  have hnew : ∀ p : P, (d.pathCordinates ++ [p])[d.pathCordinates.length]? = some p := by simp
  have hlt : ∀ {i : ℕ} {c' : ℤ} {p : P}, Chained d.graph d.pathCordinates i c' p →
      i < d.pathCordinates.length := fun hchain => (List.getElem?_eq_some_iff.mp hchain.getElem).1
  by_cases hfurther : d.row (k + 1) < d.row (k - 1) + 1
  · rw [if_pos hfurther, max_eq_left (by omega)]
    rcases hbefore.cases with ⟨hrow, hlast, hnone⟩ |
        ⟨i, c', q, hlast, hc', hchain, hk, hrow, hx, hy, hwithin⟩
    · -- neither neighbour is reached: the diagonal is that of the origin
      have hnone' : d.graph.Unreached (c - 1) (k + 1) := by
        rcases hbehind.cases with ⟨-, -, hnone'⟩ | ⟨_, _, q, _, _, _, _, hrow', _, hy, _⟩
        · exact hnone'
        · omega
      obtain ⟨y, hy⟩ := hsome
      rcases hy.neighbour with ⟨rfl, hc⟩ | ⟨y, hy⟩ | ⟨y, hy⟩
      · rw [hrow, hlast]
        refine ⟨by omega, by omega, fun t hslide => ⟨0, hc, .root (hnew _) rfl ?_ hslide⟩⟩
        simp
      · exact absurd hy (hnone y)
      · exact absurd hy (hnone' y)
    · rw [hlast, ← hrow]
      refine ⟨by omega, by omega, fun t hslide => ⟨c', hc', ?_⟩⟩
      refine .add (hnew _) rfl (hlt hchain) (hchain.append _) (hadd _ hwithin) ?_ ?_
      · simp only
        omega
      · rwa [Int.sub_sub_self]
  · rw [if_neg hfurther, max_eq_right (by omega)]
    rcases hbehind.cases with ⟨hrow, -, -⟩ |
        ⟨i, c', q, hlast, hc', hchain, hk, hrow, hx, hy, hwithin⟩
    · rcases hbefore.cases with ⟨hrow', -, -⟩ | ⟨_, _, q, _, _, _, _, hrow', _, hy, _⟩
      all_goals omega
    · have hwidth := hdelete _ hwithin
      rw [hlast, ← hrow]
      refine ⟨by omega, by omega, fun t hslide => ⟨c' + 1, by omega, ?_⟩⟩
      refine .delete (hnew _) rfl (hlt hchain) (hchain.append _) (by omega) ?_ ?_
      · simp only
        omega
      · rwa [Int.sub_sub_self]

/-- What holds during the rounds. Each diagonal has a number of deletions of its own. -/
structure Front (level : ℤ → ℤ) (d : Diff α) : Prop where
  shorter : d.a.length ≤ d.b.length
  fp_size : d.fp.size = d.a.length + d.b.length + 3
  path_size : d.a.length + d.b.length + 3 ≤ d.path.size
  known : ∀ k, -d.offset ≤ k → k ≤ d.b.length + 1 → d.Known (level k) k

theorem Front.congr {level level' : ℤ → ℤ} (h : Front level d)
    (hsame : ∀ k, level' k = level k ∨ (level k < max 0 (-k) ∧ level' k < max 0 (-k))) :
    Front level' d where
  shorter := h.shorter
  fp_size := h.fp_size
  path_size := h.path_size
  known k hlow hhigh := by
    have hknown := h.known k hlow hhigh
    rcases hsame k with heq | ⟨hlt, hlt'⟩
    · rwa [heq]
    · rcases hknown.cases with ⟨hrow, hlast, -⟩ | ⟨_, _, _, _, _, _, _, _, _, _, hwithin⟩
      · exact .inl ⟨hrow, hlast, EditGraph.unreached_of_lt hlt'⟩
      · exact absurd hwithin (EditGraph.unreached_of_lt hlt _)

/-- Only the tables of the search have changed. -/
def Searched (d d' : Diff α) : Prop :=
  d' = { d with fp := d'.fp, path := d'.path, pathCordinates := d'.pathCordinates }

theorem Searched.refl (d : Diff α) : Searched d d := rfl

theorem Searched.trans {d' d'' : Diff α} (h : Searched d d') (h' : Searched d' d'') :
    Searched d d'' := by
  rw [Searched] at h h' ⊢
  rw [h', h]

theorem Searched.contents {d' : Diff α} (h : Searched d d') : d'.a = d.a ∧ d'.b = d.b := by
  rw [h]
  exact ⟨rfl, rfl⟩

theorem Searched.graph {d' : Diff α} (h : Searched d d') : d'.graph = d.graph := by
  rw [Diff.graph, h.contents.1, h.contents.2, Diff.graph]

theorem Searched.delta {d' : Diff α} (h : Searched d d') : d'.delta = d.delta := by
  rw [Diff.delta, h.contents.1, h.contents.2, Diff.delta]

/-- So many visits have led here. -/
structure Visited (d : Diff α) (n : ℕ) (level : ℤ → ℤ) (d' : Diff α) : Prop where
  front : Front level d'
  searched : Searched d d'
  length : d'.pathCordinates.length = d.pathCordinates.length + n

/-- The deletions that a diagonal was allowed when a round is over. Behind the diagonal on which
the grid ends, those that lead back to it are held back. -/
def spent (δ p k : ℤ) : ℤ := p - max 0 (k - δ)

/-- On the way up, all diagonals before `t` have been visited. -/
def ascending (δ p t k : ℤ) : ℤ := if k < t then p else p - 1 - max 0 (k - δ)

/-- On the way down, so have all those behind `t`. -/
def descending (δ p t k : ℤ) : ℤ := if k < δ then p else if t < k then p - (k - δ) else p - 1 - (k - δ)

theorem exists_foldlM_range {σ : Type} {f : σ → ℕ → Option σ} {I : ℕ → σ → Prop} {s : σ} {n : ℕ}
    (hstart : I 0 s) (hstep : ∀ i < n, ∀ s, I i s → ∃ s', f s i = some s' ∧ I (i + 1) s') :
    ∃ s', (List.range n).foldlM f s = some s' ∧ I n s' := by
  induction n with
  | zero => exact ⟨s, rfl, hstart⟩
  | succ n ih =>
    obtain ⟨s', hfold, hinv⟩ := ih fun i hi => hstep i (by omega)
    obtain ⟨s'', hlast, hinv'⟩ := hstep n (by omega) s' hinv
    refine ⟨s'', ?_, hinv'⟩
    rw [List.range_succ, List.foldlM_append, hfold]
    simpa using hlast

/-- The end is known to be reached when the row of its diagonal says so. -/
theorem Front.ends_iff {p : ℕ} (h : Front (spent d.delta p) d) :
    d.row d.delta = d.b.length ↔ d.graph.Ends p := by
  have hshorter := h.shorter
  have hknown := h.known d.delta (by rw [offset, delta]; omega) (by rw [delta]; omega)
  rw [spent, Int.sub_self, max_self, Int.sub_zero] at hknown
  constructor
  · intro hrow
    rcases hknown.cases with ⟨hnone, -⟩ | ⟨i, c', q, -, -, -, -, hq, -, -, hwithin⟩
    · omega
    · rw [hq, hrow] at hwithin
      exact hwithin
  · intro hends
    have hle : (d.b.length : ℤ) ≤ d.row d.delta := hknown.le_row hends
    rcases hknown.cases with ⟨hnone, -⟩ | ⟨i, c', q, -, -, -, -, hq, -, -, hwithin⟩
    · omega
    · have hbounds : q.y ≤ d.b.length := hwithin.bounds.2.2.2.1
      omega

/-- What the search ends with: either the end is reached, by a round before which it was not, or
there are too many records. -/
structure Found (limit : ℕ) (d : Diff α) (q : ℕ) (d' : Diff α) : Prop where
  front : Front (spent d.delta q) d'
  searched : Searched d d'
  before : ¬ d.graph.Ends ((q : ℤ) - 1)
  length : d'.pathCordinates.length = (q + 1) * (q + 1 + d.delta)
  behind : d.graph.Ends q ∨ limit ≤ d'.pathCordinates.length

theorem Found.of_searched {limit q : ℕ} {d' d'' : Diff α} (h : Found limit d' q d'')
    (hsearched : Searched d d') : Found limit d q d'' where
  front := hsearched.delta ▸ h.front
  searched := hsearched.trans h.searched
  before := hsearched.graph ▸ h.before
  length := hsearched.delta ▸ h.length
  behind := hsearched.graph ▸ h.behind

variable [DecidableEq α]

/-- What a visit leaves, with every index within its block. -/
theorem exists_visit {s r t : ℤ} (hrange : ∀ i, k - 1 ≤ i → i ≤ k + 1 → 0 ≤ i + d.offset ∧
      i + d.offset < d.fp.size ∧ i + d.offset < d.path.size)
    (hs : max (d.row (k - 1) + 1) (d.row (k + 1)) = s)
    (hr : (if d.row (k + 1) < d.row (k - 1) + 1 then d.last (k - 1) else d.last (k + 1)) = r)
    (ht : s + (d.run (s - k) s : ℤ) = t) :
    ∃ d', d.visit k = some d' ∧ Searched d d' ∧ d'.fp.size = d.fp.size ∧
      d'.path.size = d.path.size ∧ d'.row = Function.update d.row k t ∧
      d'.last = Function.update d.last k d.pathCordinates.length ∧
      d'.pathCordinates = d.pathCordinates ++ [⟨t - k, t, r⟩] := by
  obtain ⟨hlow, hfp, hpath⟩ := hrange (k - 1) (by omega) (by omega)
  obtain ⟨hlow', hfp', hpath'⟩ := hrange (k + 1) (by omega) (by omega)
  obtain ⟨hmid, hmidfp, hmidpath⟩ := hrange k (by omega) (by omega)
  have hsnake : d.snake k (d.row (k - 1) + 1) (d.row (k + 1)) = some (t, { d with
      path := { d.path with val := Function.update d.path.val (k + d.offset) d.pathCordinates.length }
      pathCordinates := d.pathCordinates ++ [⟨t - k, t, r⟩] }) := by
    simp only [snake, hs, Slots.get_eq ⟨hlow, hpath⟩, Slots.get_eq ⟨hlow', hpath'⟩,
      Slots.set_eq ⟨hmid, hmidpath⟩, Option.bind_eq_bind, Option.bind_some, Option.pure_def, ht]
    rw [show s - k + (d.run (s - k) s : ℤ) = t - k by omega, ← hr]
    split <;> rfl
  have hvisit : d.visit k = some { d with
      fp := { d.fp with val := Function.update d.fp.val (k + d.offset) t }
      path := { d.path with val := Function.update d.path.val (k + d.offset) d.pathCordinates.length }
      pathCordinates := d.pathCordinates ++ [⟨t - k, t, r⟩] } := by
    rw [row, row] at hsnake
    simp only [Diff.visit, Slots.get_eq ⟨hlow, hfp⟩, Slots.get_eq ⟨hlow', hfp'⟩,
      Option.bind_eq_bind, Option.bind_some, hsnake, Option.pure_def]
    exact congrArg (Option.bind · _) (Slots.set_eq ⟨hmid, hmidfp⟩)
  have hshift : ∀ (f : ℤ → ℤ) (v j : ℤ), Function.update f (k + d.offset) v (j + d.offset) =
      Function.update (fun i => f (i + d.offset)) k v j := by
    intro f v j
    simp [Function.update_apply]
  exact ⟨_, hvisit, rfl, rfl, rfl, funext fun j => hshift d.fp.val t j,
    funext fun j => hshift d.path.val _ j, rfl⟩

/-- A visit brings a diagonal up to the number of deletions that its neighbours allow. -/
theorem Front.visit {level : ℤ → ℤ} (h : Front level d) (hlow : -d.offset < k)
    (hhigh : k ≤ d.b.length) (hbefore : level (k - 1) = c) (hbehind : level (k + 1) = c - 1)
    (hadd : ∀ y, d.graph.Within c (k - 1) y → y < d.graph.height)
    (hdelete : ∀ y, d.graph.Within (c - 1) (k + 1) y → y - (k + 1) < d.graph.width)
    (hsome : ∃ y, d.graph.Within c k y) :
    ∃ d', d.visit k = some d' ∧ Front (Function.update level k c) d' ∧ Searched d d' ∧
      d'.pathCordinates.length = d.pathCordinates.length + 1 := by
  have hknown := h.known (k - 1) (by omega) (by omega)
  have hknown' := h.known (k + 1) (by omega) (by omega)
  rw [hbefore] at hknown
  rw [hbehind] at hknown'
  obtain ⟨hs, hsk, hchained⟩ := exists_chained hknown hknown' hadd hdelete hsome
  have hrange : ∀ i, k - 1 ≤ i → i ≤ k + 1 → 0 ≤ i + d.offset ∧ i + d.offset < d.fp.size ∧
      i + d.offset < d.path.size := by
    have hsize := h.fp_size
    have hsize' := h.path_size
    rw [offset] at hlow ⊢
    omega
  generalize hmax : max (d.row (k - 1) + 1) (d.row (k + 1)) = s at hs hsk hchained
  generalize hr : (if d.row (k + 1) < d.row (k - 1) + 1 then d.last (k - 1)
    else d.last (k + 1)) = r at hchained
  obtain ⟨hslide, hstop⟩ := run_slides (d := d) hs hsk
  generalize ht : s + (d.run (s - k) s : ℤ) = t at hslide hstop
  obtain ⟨d', hvisit, hsearched, hfp, hpath, hrow, hlast, hcordinates⟩ :=
    exists_visit hrange hmax hr ht
  obtain ⟨c', hc', hchain⟩ := hchained t hslide
  have hsame : d'.a = d.a ∧ d'.b = d.b := by
    rw [hsearched]
    exact ⟨rfl, rfl⟩
  refine ⟨d', hvisit, ?_, hsearched, by rw [hcordinates]; simp⟩
  have hgraph : d'.graph = d.graph := by rw [graph, hsame.1, hsame.2, graph]
  refine ⟨by rw [hsame.1, hsame.2]; exact h.shorter, by rw [hfp, hsame.1, hsame.2, h.fp_size],
    by rw [hpath, hsame.1, hsame.2]; exact h.path_size, fun j hj hj' => ?_⟩
  rw [Known, hrow, hlast, hgraph, hcordinates]
  by_cases hjk : j = k
  · subst hjk
    simp only [Function.update_self]
    refine .inr ⟨_, c', _, rfl, hc', hchain, Int.sub_sub_self .., rfl, fun y hy => ?_⟩
    refine EditGraph.le_of_slide ?_ ?_ (fun _ => hs) hslide hstop hy
    · intro y hy
      have hle := hknown.le_row hy
      omega
    · intro y hy
      have hle := hknown'.le_row hy
      omega
  · simp only [Function.update_of_ne hjk]
    rw [offset, hsame.1] at hj
    rw [hsame.2] at hj'
    rcases h.known j hj hj' with hnone | ⟨i, c'', p, hlast', hc'', hchain', hp⟩
    · exact .inl hnone
    · exact .inr ⟨i, c'', p, hlast', hc'', hchain'.append _, hp⟩

theorem Visited.visit {n : ℕ} {level : ℤ → ℤ} {d' : Diff α} {k c : ℤ} (h : Visited d n level d')
    (hlow : -d.offset < k) (hhigh : k ≤ d.b.length) (hbefore : level (k - 1) = c)
    (hbehind : level (k + 1) = c - 1)
    (hadd : ∀ y, d.graph.Within c (k - 1) y → y < d.graph.height)
    (hdelete : ∀ y, d.graph.Within (c - 1) (k + 1) y → y - (k + 1) < d.graph.width)
    (hsome : ∃ y, d.graph.Within c k y) :
    ∃ d'', d'.visit k = some d'' ∧ Visited d (n + 1) (Function.update level k c) d'' := by
  have hgraph := h.searched.graph
  obtain ⟨ha, hb⟩ := h.searched.contents
  obtain ⟨d'', hvisit, hfront, hsearched, hlength⟩ := h.front.visit (k := k)
    (by rw [offset, ha]; exact hlow) (by rw [hb]; exact hhigh) hbefore hbehind
    (by rw [hgraph]; exact hadd) (by rw [hgraph]; exact hdelete) (by rw [hgraph]; exact hsome)
  exact ⟨d'', hvisit, hfront, h.searched.trans hsearched, by rw [hlength, h.length]; omega⟩

/-- One round. -/
theorem Front.round {p : ℕ} (h : Front (spent d.delta (p - 1)) d)
    (hends : ¬ d.graph.Ends ((p : ℤ) - 1)) :
    ∃ d', d.round p = some d' ∧
      Visited d ((d.delta + p).toNat + p + 1) (spent d.delta p) d' := by
  have hshorter := h.shorter
  have hwidth : d.graph.width = d.a.length := rfl
  have hheight : d.graph.height = d.b.length := rfl
  have hdelta : d.delta = (d.b.length : ℤ) - d.a.length := rfl
  have hgdelta : d.graph.delta = d.delta := rfl
  have hp : (p : ℤ) ≤ d.a.length := by
    by_contra hnot
    exact hends (EditGraph.ends_width.mono (by omega))
  have hlower : ∀ {c k : ℤ}, c + (k - d.delta) ≤ p - 1 → ∀ y, d.graph.Within c k y →
      y < d.graph.height := by
    intro c k hle y hy
    refine EditGraph.Within.lt_height (c := c + (k - d.delta)) (k := k) ?_ fun h => hends (h.mono hle)
    rwa [hgdelta, Int.add_sub_cancel]
  have hright : ∀ {c k : ℤ}, c ≤ p - 1 → ∀ y, d.graph.Within c k y →
      y - k < d.graph.width := fun hle y hy => hy.lt_width fun h => hends (h.mono hle)
  -- from the left side up
  obtain ⟨d₁, hfold₁, hvisited₁⟩ := exists_foldlM_range
    (f := fun (e : Diff α) (i : ℕ) => e.visit (-(p : ℤ) + i))
    (I := fun i d' => Visited d i (ascending d.delta p (-p + i)) d') (s := d)
    (n := (d.delta + p).toNat)
    ⟨h.congr fun k => by
      rw [spent, ascending]
      split <;> omega, .refl d, rfl⟩
    fun i hi d' hvisited => by
      obtain ⟨d'', hvisit, hvisited'⟩ := hvisited.visit (k := -(p : ℤ) + i) (c := p)
        (by rw [offset]; omega) (by omega) (if_pos (by omega))
        (by rw [ascending, if_neg (by omega)]; omega) (hlower (by omega)) (hright (by omega))
        ⟨_, EditGraph.within_of_room (by omega) (by omega) (by omega) (by omega)⟩
      refine ⟨d'', hvisit, ?_⟩
      convert hvisited' using 1
      funext k
      rw [Function.update_apply, ascending, ascending]
      split_ifs <;> omega
  -- from the other side down
  obtain ⟨d₂, hfold₂, hvisited₂⟩ := exists_foldlM_range
    (f := fun (e : Diff α) (i : ℕ) => e.visit (d.delta + p - i))
    (I := fun i d' => Visited d ((d.delta + p).toNat + i) (descending d.delta p (d.delta + p - i)) d')
    (s := d₁) (n := p)
    ⟨hvisited₁.front.congr fun k => by
      rw [ascending, descending]
      split_ifs <;> omega, hvisited₁.searched, hvisited₁.length⟩
    fun i hi d' hvisited => by
      obtain ⟨d'', hvisit, hvisited'⟩ := hvisited.visit (k := d.delta + p - i) (c := i)
        (by rw [offset]; omega) (by omega)
        (by rw [descending, if_neg (by omega), if_neg (by omega)]; omega)
        (by rw [descending, if_neg (by omega), if_pos (by omega)]; omega)
        (hlower (by omega)) (hright (by omega))
        ⟨_, EditGraph.within_of_room (by omega) (by omega) (by omega) (by omega)⟩
      refine ⟨d'', hvisit, ?_⟩
      rw [← Nat.add_assoc]
      convert hvisited' using 1
      funext k
      rw [Function.update_apply, descending, descending]
      split_ifs <;> omega
  obtain ⟨d₃, hvisit, hvisited₃⟩ := hvisited₂.visit (k := d.delta) (c := p)
    (by rw [offset]; omega) (by omega) (by rw [descending, if_pos (by omega)])
    (by rw [descending, if_neg (by omega), if_pos (by omega)]; omega)
    (hlower (by omega)) (hright (by omega))
    ⟨_, EditGraph.within_of_room (by omega) (by omega) (by omega) (by omega)⟩
  refine ⟨d₃, ?_, ?_⟩
  · simp only [Diff.round, diagonals, List.foldlM_append, List.foldlM_map, hfold₁, hfold₂,
      Option.bind_eq_bind, Option.bind_some, List.foldlM_cons, List.foldlM_nil, hvisit]
    rfl
  · convert hvisited₃ using 1
    funext k
    rw [Function.update_apply, descending, spent]
    split_ifs <;> omega

theorem exists_search (limit fuel : ℕ) {p : ℕ} (h : Front (spent d.delta (p - 1)) d)
    (hends : ¬ d.graph.Ends ((p : ℤ) - 1)) (hlength : d.pathCordinates.length = p * (p + d.delta))
    (hfuel : d.a.length < fuel + p) :
    ∃ q d', d.search limit fuel p = some (q, d') ∧ Found limit d q d' := by
  induction fuel generalizing d p with
  | zero =>
    refine absurd (EditGraph.ends_width.mono ?_) hends
    rw [show d.graph.width = d.a.length from rfl]
    omega
  | succ fuel ih =>
    obtain ⟨d', hround, hvisited⟩ := h.round hends
    have hdelta := hvisited.searched.delta
    have hgraph := hvisited.searched.graph
    obtain ⟨ha, hb⟩ := hvisited.searched.contents
    have hfront : Front (spent d'.delta p) d' := hdelta ▸ hvisited.front
    have hshorter : 0 ≤ d.delta := by
      have hle := h.shorter
      rw [delta]
      omega
    have hlength' : (d'.pathCordinates.length : ℤ) = (p + 1) * (p + 1 + d.delta) := by
      have hcount : (d'.pathCordinates.length : ℤ) =
          d.pathCordinates.length + (d.delta + 2 * p + 1) := by
        have hvisits := hvisited.length
        omega
      rw [hcount, hlength]
      grind
    have hget : d'.fp.get (d'.delta + d'.offset) = some (d'.row d'.delta) := by
      refine Slots.get_eq ?_
      have hsize := hfront.fp_size
      have hle := hfront.shorter
      rw [delta, offset]
      omega
    simp only [search, hround, hget, Option.bind_eq_bind, Option.bind_some]
    split
    · rename_i hmore
      have hnot : ¬ d'.graph.Ends p := fun hreached => hmore.1 (hfront.ends_iff.mpr hreached)
      obtain ⟨q, d'', hsearch, hfound⟩ := ih (d := d') (p := p + 1) (by simpa using hfront)
        (by simpa using hnot) (by simpa [hdelta] using hlength') (by rw [ha]; omega)
      exact ⟨q, d'', hsearch, hfound.of_searched hvisited.searched⟩
    · rename_i hstop
      refine ⟨p, d', rfl, hvisited.front, hvisited.searched, hends, hlength', ?_⟩
      rw [← hgraph, ← hfront.ends_iff]
      by_cases hreached : d'.row d'.delta = d'.b.length
      · exact .inl hreached
      · exact .inr (not_lt.mp fun hlt => hstop ⟨hreached, hlt⟩)

end Diff

end Ctguard.Dtl
