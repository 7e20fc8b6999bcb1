import Ctguard.DiffSearch
import Mathlib.Tactic.Ring
import Mathlib.Algebra.Order.Ring.Int

/-!
# The script that is read off

Along the records of a search, the script grows from the origin to the point that was reached.
If this is the end of both contents, the script is complete; else what is left gets a search of
its own, and the numbers of its lines start over.
-/

namespace Ctguard.Dtl

variable {α : Type}

/-- What an element of the script does. -/
def edit (e : SesElem α) : Edit α :=
  match e.2.type with
  | .delete => .delete e.1
  | .common => .common e.1
  | .add => .add e.1

/-- The lines of a script with their numbers in both contents. -/
def numbered : ℕ → ℕ → List (Edit α) → List (SesElem α)
  | _, _, [] => []
  | i, j, .delete e :: s => (e, ⟨i, 0, .delete⟩) :: numbered (i + 1) j s
  | i, j, .add e :: s => (e, ⟨0, j, .add⟩) :: numbered i (j + 1) s
  | i, j, .common e :: s => (e, ⟨i, j, .common⟩) :: numbered (i + 1) (j + 1) s

/-- A script for the exchanged contents, the right way around. -/
def orient (swapped : Bool) (s : List (Edit α)) : List (Edit α) :=
  if swapped then s.map Edit.flip else s

theorem numbered_append (i j : ℕ) (s t : List (Edit α)) : numbered i j (s ++ t) =
    numbered i j s ++ numbered (i + (Edit.before s).length) (j + (Edit.after s).length) t := by
  induction s generalizing i j with
  | nil => rfl
  | cons e s ih =>
    cases e
    all_goals
      simp only [List.cons_append, numbered, ih, Edit.before, Edit.after, List.length_cons]
      congr 3 <;> omega

theorem map_edit_numbered (i j : ℕ) (s : List (Edit α)) : (numbered i j s).map edit = s := by
  induction s generalizing i j with
  | nil => rfl
  | cons e s ih => cases e <;> simp [numbered, edit, ih]

@[simp] theorem orient_append (w : Bool) (s t : List (Edit α)) :
    orient w (s ++ t) = orient w s ++ orient w t := by
  cases w <;> simp [orient]

namespace Diff

/-- What has been read off, up to a point of the contents. -/
structure Written (d : Diff α) (c : Cursor α) (s : List (Edit α)) : Prop where
  before : Edit.before s <+: d.a
  after : Edit.after s <+: d.b
  px : c.px = (Edit.before s).length
  py : c.py = (Edit.after s).length
  ses : c.ses = d.ses ++ numbered 1 1 (orient d.swapped s)

variable {d : Diff α} {c : Cursor α} {s : List (Edit α)}

theorem take_succ_of_prefix {l p : List α} {e : α} (h : p <+: l) (he : l[p.length]? = some e) :
    p ++ [e] <+: l := by
  obtain ⟨rest, rfl⟩ := h
  rw [List.getElem?_append_right (Nat.le_refl _), Nat.sub_self] at he
  cases rest with
  | nil => simp at he
  | cons x rest =>
    obtain rfl : x = e := by simpa using he
    simp

/-- The line numbers of an element that comes next. -/
def nextInfo (d : Diff α) (c : Cursor α) (e : Edit α) : List (SesElem α) :=
  if d.swapped then numbered (c.py + 1) (c.px + 1) [e.flip] else numbered (c.px + 1) (c.py + 1) [e]

theorem Written.snoc (h : Written d c s) {e : Edit α} {px py : ℕ}
    (hbefore : Edit.before (s ++ [e]) <+: d.a) (hafter : Edit.after (s ++ [e]) <+: d.b)
    (hpx : px = c.px + (Edit.before [e]).length) (hpy : py = c.py + (Edit.after [e]).length) :
    Written d ⟨px, py, c.ses ++ nextInfo d c e⟩ (s ++ [e]) where
  before := hbefore
  after := hafter
  px := by rw [hpx, h.px, Edit.before_append, List.length_append]
  py := by rw [hpy, h.py, Edit.after_append, List.length_append]
  ses := by
    rw [orient_append, numbered_append, ← List.append_assoc, h.ses, nextInfo, h.px, h.py]
    cases d.swapped <;> simp [orient, Nat.add_comm]

theorem Written.delete (h : Written d c s) {v : P} (hv : v.y - v.x < (c.py : ℤ) - c.px)
    (hlt : c.px < d.a.length) : ∃ c' s', d.recordElem v c = some c' ∧ Written d c' s' ∧
      c'.px = c.px + 1 ∧ c'.py = c.py ∧ Edit.deletions s' = Edit.deletions s + 1 := by
  have hget : d.a[c.px]? = some d.a[c.px] := List.getElem?_eq_getElem hlt
  refine ⟨_, s ++ [.delete d.a[c.px]], ?_, h.snoc ?_ ?_ rfl rfl, rfl, rfl, ?_⟩
  · rw [recordElem, if_neg (by omega), if_pos hv, hget]
    cases hw : d.swapped <;> simp [nextInfo, hw, numbered, Edit.flip, Edit.before, Edit.after]
  · rw [Edit.before_append]
    exact take_succ_of_prefix h.before (by rw [← h.px, hget])
  · simpa [Edit.after] using h.after
  · simp [Edit.deletions]

theorem Written.add (h : Written d c s) {v : P} (hv : (c.py : ℤ) - c.px < v.y - v.x)
    (hlt : c.py < d.b.length) : ∃ c' s', d.recordElem v c = some c' ∧ Written d c' s' ∧
      c'.px = c.px ∧ c'.py = c.py + 1 ∧ Edit.deletions s' = Edit.deletions s := by
  have hget : d.b[c.py]? = some d.b[c.py] := List.getElem?_eq_getElem hlt
  refine ⟨_, s ++ [.add d.b[c.py]], ?_, h.snoc ?_ ?_ rfl rfl, rfl, rfl, ?_⟩
  · rw [recordElem, if_pos hv, hget]
    cases hw : d.swapped <;> simp [nextInfo, hw, numbered, Edit.flip, Edit.before, Edit.after]
  · simpa [Edit.before] using h.before
  · rw [Edit.after_append]
    exact take_succ_of_prefix h.after (by rw [← h.py, hget])
  · simp [Edit.deletions]

theorem Written.common (h : Written d c s) {v : P} (hv : (c.py : ℤ) - c.px = v.y - v.x)
    (hsame : d.graph.same c.px c.py) : ∃ c' s', d.recordElem v c = some c' ∧ Written d c' s' ∧
      c'.px = c.px + 1 ∧ c'.py = c.py + 1 ∧ Edit.deletions s' = Edit.deletions s := by
  obtain ⟨e, hx, hy⟩ := Edit.graph_same.mp hsame
  refine ⟨_, s ++ [.common e], ?_, h.snoc ?_ ?_ rfl rfl, rfl, rfl, ?_⟩
  · rw [recordElem, if_neg (by omega), if_neg (by omega)]
    cases hw : d.swapped <;>
      simp [nextInfo, hw, hx, hy, numbered, Edit.flip, Edit.before, Edit.after]
  · rw [Edit.before_append]
    exact take_succ_of_prefix h.before (by rw [← h.px, hx])
  · rw [Edit.after_append]
    exact take_succ_of_prefix h.after (by rw [← h.py, hy])
  · simp [Edit.deletions]

/-- Down a diagonal, to a record on it. -/
theorem Written.slide (h : Written d c s) (v : P) (fuel : ℕ) (hv : (c.py : ℤ) - c.px = v.y - v.x)
    (hslide : d.graph.Slides (v.y - v.x) c.py v.y) (hfuel : v.y < c.py + fuel) :
    ∃ c' s', d.recordTo v fuel c = some c' ∧ Written d c' s' ∧
      (c'.px : ℤ) = v.x ∧ (c'.py : ℤ) = v.y ∧ Edit.deletions s' = Edit.deletions s := by
  obtain ⟨hle, hsame⟩ := hslide
  induction fuel generalizing c s with
  | zero => omega
  | succ fuel ih =>
    rw [recordTo]
    split
    · have hrow := hsame c.py (le_refl _) (by omega)
      rw [show (c.py : ℤ) - (v.y - v.x) = c.px by omega] at hrow
      obtain ⟨c₁, s₁, hrecord, hwritten, hpx, hpy, hdel⟩ := h.common hv hrow
      obtain ⟨c', s', hrec', hwritten', hpx', hpy', hdel'⟩ := ih hwritten (by omega) (by omega)
        (by omega) fun y hy hlt => hsame y (by omega) hlt
      exact ⟨c', s', by simpa [hrecord] using hrec', hwritten', hpx', hpy', hdel'.trans hdel⟩
    · exact ⟨c, s, rfl, h, by omega, by omega, rfl⟩

theorem written_start (d : Diff α) : Written d ⟨0, 0, d.ses⟩ [] where
  before := List.nil_prefix
  after := List.nil_prefix
  px := rfl
  py := rfl
  ses := by simp [orient, numbered]

/-- The start and the records on the way to one of them. -/
def recordAll (d : Diff α) (v : List P) : Option (Cursor α) :=
  v.foldlM (fun c p => d.recordTo p (d.a.length + d.b.length + 1) c) ⟨0, 0, d.ses⟩

theorem recordAll_append {v : List P} (h : d.recordAll v = some c) (p : P) :
    d.recordAll (v ++ [p]) = d.recordTo p (d.a.length + d.b.length + 1) c := by
  rw [recordAll] at h
  rw [recordAll, List.foldlM_append, h]
  simp

/-- Along the records, up to one of them. -/
theorem exists_trace {i : ℕ} {n : ℤ} {p : P} (h : Chained d.graph d.pathCordinates i n p)
    (fuel : ℕ) (hfuel : i + 1 < fuel) :
    ∃ ps c s, trace d.pathCordinates fuel i = some (p :: ps) ∧
      d.recordAll (p :: ps).reverse = some c ∧ Written d c s ∧
      (c.px : ℤ) = p.x ∧ (c.py : ℤ) = p.y ∧ (Edit.deletions s : ℤ) = n := by
  have hheight : ∀ {n : ℤ} {i : ℕ} {p : P}, Chained d.graph d.pathCordinates i n p →
      p.x ≤ d.a.length ∧ p.y ≤ d.b.length := by
    intro n i p h
    have hbounds := h.reaches.bounds
    exact ⟨hbounds.2.1, hbounds.2.2.2.1⟩
  have hhere := hheight h
  induction h generalizing fuel with
  | @root i p hp hk hx hslide =>
    obtain ⟨fuel, rfl⟩ : ∃ f, fuel = f + 2 := ⟨fuel - 2, by omega⟩
    obtain ⟨c, s, hrecord, hwritten, hpx, hpy, hdel⟩ := (written_start d).slide p
      (d.a.length + d.b.length + 1) (by simpa using hx.symm) (by simpa [hx] using hslide)
      (by omega)
    refine ⟨[], c, s, ?_, ?_, hwritten, hpx, hpy, by simpa [Edit.deletions] using hdel⟩
    · simp [trace, hp, hk, show ¬ ((i : ℤ) = -1) by omega, show ¬ (i : ℤ) < 0 by omega]
    · simpa [recordAll] using hrecord
  | @delete i j n q p hp hk hji hq hx hdiagonal hslide ih =>
    obtain ⟨fuel, rfl⟩ : ∃ f, fuel = f + 1 := ⟨fuel - 1, by omega⟩
    obtain ⟨ps, c, s, htrace, hrecord, hwritten, hpx, hpy, hdel⟩ :=
      ih fuel (by omega) (hheight hq)
    have hle := hslide.1
    have hlt : c.px < d.a.length := by
      rw [← hpx] at hx
      exact Int.ofNat_lt.mp hx
    obtain ⟨c₁, s₁, hstep, hwritten₁, hpx₁, hpy₁, hdel₁⟩ :=
      hwritten.delete (v := p) (by omega) hlt
    obtain ⟨c', s', hslid, hwritten', hpx', hpy', hdel'⟩ := hwritten₁.slide p
      (d.a.length + d.b.length) (by omega) (by rwa [hpy₁, hpy]) (by omega)
    refine ⟨q :: ps, c', s', ?_, ?_, hwritten', hpx', hpy', by omega⟩
    · rw [← hk] at htrace
      simp [trace, hp, htrace, show ¬ ((i : ℤ) = -1) by omega, show ¬ (i : ℤ) < 0 by omega]
    · rw [List.reverse_cons, recordAll_append hrecord, recordTo, if_pos (by omega), hstep]
      exact hslid
  | @add i j n q p hp hk hji hq hy hdiagonal hslide ih =>
    obtain ⟨fuel, rfl⟩ : ∃ f, fuel = f + 1 := ⟨fuel - 1, by omega⟩
    obtain ⟨ps, c, s, htrace, hrecord, hwritten, hpx, hpy, hdel⟩ :=
      ih fuel (by omega) (hheight hq)
    have hle := hslide.1
    have hlt : c.py < d.b.length := by
      rw [← hpy] at hy
      exact Int.ofNat_lt.mp hy
    obtain ⟨c₁, s₁, hstep, hwritten₁, hpx₁, hpy₁, hdel₁⟩ := hwritten.add (v := p) (by omega) hlt
    obtain ⟨c', s', hslid, hwritten', hpx', hpy', hdel'⟩ := hwritten₁.slide p
      (d.a.length + d.b.length) (by omega)
      (by rwa [hpy₁, show ((c.py + 1 : ℕ) : ℤ) = q.y + 1 by omega]) (by omega)
    refine ⟨q :: ps, c', s', ?_, ?_, hwritten', hpx', hpy', by omega⟩
    · rw [← hk] at htrace
      simp [trace, hp, htrace, show ¬ ((i : ℤ) = -1) by omega, show ¬ (i : ℤ) < 0 by omega]
    · rw [List.reverse_cons, recordAll_append hrecord, recordTo, if_pos (by omega), hstep]
      exact hslid

/-- Nothing has been searched yet. -/
structure Fresh (d : Diff α) : Prop where
  shorter : d.a.length ≤ d.b.length
  fp : d.fp = .filled (d.a.length + d.b.length + 3)
  path : ∃ n, d.path = .filled n ∧ d.a.length + d.b.length + 3 ≤ n
  pathCordinates : d.pathCordinates = []

theorem Fresh.front (h : Fresh d) : Front (spent d.delta (-1)) d where
  shorter := h.shorter
  fp_size := by rw [h.fp, Slots.filled]
  path_size := by
    obtain ⟨n, hpath, hn⟩ := h.path
    rw [hpath]
    exact hn
  known k _ _ := by
    obtain ⟨n, hpath, -⟩ := h.path
    refine .inl ⟨by rw [row, h.fp, Slots.filled], by rw [last, hpath, Slots.filled], ?_⟩
    refine EditGraph.unreached_of_lt ?_
    rw [spent]
    omega

theorem Written.restart (hs : Written d c s) (hdelta : (c.py : ℤ) - c.px = d.delta)
    (hpath : d.a.length + d.b.length + 3 ≤ d.path.size) : Fresh (d.restart c) where
  shorter := by
    have hle := hs.before.length_le
    have hle' := hs.after.length_le
    rw [← hs.px] at hle
    rw [← hs.py] at hle'
    rw [delta] at hdelta
    simp only [Diff.restart, List.length_drop]
    omega
  fp := rfl
  path := ⟨_, rfl, by
    simp only [Diff.restart, List.length_drop]
    omega⟩
  pathCordinates := rfl

/-- One search, and the script that it leaves. -/
structure Segment (limit : ℕ) (d : Diff α) (q : ℕ) (c : Cursor α) (s : List (Edit α)) :
    Prop where
  written : Written d c s
  diagonal : (c.py : ℤ) - c.px = d.delta
  deletions : Edit.deletions s ≤ q
  before : ¬ d.graph.Ends ((q : ℤ) - 1)
  behind : (d.graph.Ends q ∧ c.px = d.a.length ∧ c.py = d.b.length) ∨
    (¬ d.graph.Ends q ∧ 0 < c.py ∧ (limit : ℤ) ≤ (q + 1) * (q + 1 + d.delta))

theorem not_ends_neg {g : EditGraph} {c : ℤ} (h : c < 0) : ¬ g.Ends c := by
  intro hends
  have hbounds := EditGraph.Within.bounds hends
  omega

/-- A search that was given up has come forward. -/
theorem Found.progress {limit q : ℕ} {d' : Diff α} (h : Found limit d q d') (hlimit : 2 ≤ limit)
    (hends : ¬ d.graph.Ends q) (hlength : limit ≤ d'.pathCordinates.length) :
    0 < d'.row d'.delta := by
  have hcount := h.length
  have hdelta := h.searched.delta
  have hshorter := h.front.shorter
  have hnonneg : 0 ≤ d.delta := by
    rw [← hdelta, delta]
    omega
  have hheight : d.graph.height = d.graph.width + d.delta := by
    simp only [graph, Edit.graph, delta]
    omega
  have hwidth : (q : ℤ) < d.graph.width := by
    by_contra hnot
    exact hends (EditGraph.ends_width.mono (by omega))
  have hknown := h.front.known d'.delta (by rw [offset, delta]; omega) (by rw [delta]; omega)
  rw [hdelta, spent, Int.sub_self, max_self, Int.sub_zero] at hknown
  rw [hdelta]
  suffices ∃ y, 0 < y ∧ d.graph.Within q d.delta y by
    obtain ⟨y, hy, hwithin⟩ := this
    rw [← h.searched.graph] at hwithin
    have hle := hknown.le_row hwithin
    omega
  by_cases hzero : d.delta = 0
  · -- one line is deleted and one is added
    have hq : q ≠ 0 := by
      rintro rfl
      rw [hzero] at hcount
      omega
    refine ⟨1, Int.one_pos, 1, by omega, ?_⟩
    rw [hzero]
    exact .add (.delete .origin (by omega)) (by omega)
  · refine ⟨max 0 d.delta, by omega, EditGraph.within_of_room ?_ ?_ ?_ ?_⟩
    all_goals omega

variable [DecidableEq α]

theorem Fresh.exists_segment (h : Fresh d) (limit : ℕ) (hlimit : 2 ≤ limit) :
    ∃ (q : ℕ) (c : Cursor α) (s : List (Edit α)) (d' : Diff α), Segment limit d q c s ∧
      d.a.length + d.b.length + 3 ≤ d'.path.size ∧
      d' = { d with
        fp := d'.fp, path := d'.path, pathCordinates := d'.pathCordinates
        editDistance := d.editDistance + d.delta + 2 * q } ∧
      ∀ fuel, composeWithin limit (fuel + 1) d =
        if d.a.length ≤ c.px ∧ d.b.length ≤ c.py then some { d' with ses := c.ses }
        else composeWithin limit fuel (d'.restart c) := by
  obtain ⟨q, d₁, hsearch, hfound⟩ := exists_search limit (d.a.length + 1) (p := 0)
    h.front (not_ends_neg (by omega)) (by simp [h.pathCordinates]) (by omega)
  obtain ⟨ha, hb⟩ := hfound.searched.contents
  have hdelta := hfound.searched.delta
  have hgraph := hfound.searched.graph
  have hshorter := hfound.front.shorter
  have hpath := hfound.front.path_size
  have hknown := hfound.front.known d₁.delta (by rw [offset, delta]; omega)
    (by rw [delta]; omega)
  rw [spent, hdelta, Int.sub_self, max_self, Int.sub_zero, ← hdelta] at hknown
  rcases hknown.cases with ⟨-, -, hnone⟩ |
      ⟨i, n, p, hlast, hn, hchain, hdiagonal, hrow, -, -, -⟩
  · refine absurd (EditGraph.within_of_room (g := d₁.graph) (c := q) (k := d₁.delta)
      (by omega) (by rw [delta]; omega) ?_ ?_) (hnone _)
    · simp only [graph, Edit.graph, delta]
      omega
    · simp only [graph, Edit.graph, delta]
      omega
  · obtain ⟨d₂, hd₂⟩ : ∃ d₂, d₂ = { d₁ with
      editDistance := d₁.editDistance + d₁.delta + 2 * q } := ⟨_, rfl⟩
    have ha₂ : d₂.a = d.a := by rw [hd₂, ← ha]
    have hb₂ : d₂.b = d.b := by rw [hd₂, ← hb]
    have hgraph₂ : d₂.graph = d₁.graph := by rw [hd₂, graph, graph]
    have hget : d₂.path.get (d₂.delta + d₂.offset) = some (i : ℤ) := by
      rw [hd₂, ← hlast]
      exact Slots.get_eq (by simp only [delta, offset]; omega)
    have hsame : d₂.ses = d.ses ∧ d₂.swapped = d.swapped ∧
        d₂.editDistance = d.editDistance + d.delta + 2 * q := by
      rw [hd₂, hfound.searched]
      exact ⟨rfl, rfl, rfl⟩
    have hchain₂ : Chained d₂.graph d₂.pathCordinates i n p := by
      rw [hgraph₂, hd₂]
      exact hchain
    obtain ⟨ps, c, s, htrace, hrecord, hwritten, hpx, hpy, hdel⟩ := exists_trace hchain₂
      (d₂.pathCordinates.length + 1)
      (Nat.succ_lt_succ (List.getElem?_eq_some_iff.mp hchain₂.getElem).1)
    have hrecorded : d₂.record (p :: ps).reverse = some c := by
      rw [record, if_neg (by simp)]
      exact hrecord
    refine ⟨q, c, s, d₂, ⟨⟨ha₂ ▸ hwritten.before, hb₂ ▸ hwritten.after, hwritten.px, hwritten.py, ?_⟩,
      by omega, by omega, hfound.before, ?_⟩, by rw [hd₂, ← ha, ← hb]; exact hpath, ?_,
      fun fuel => ?_⟩
    · rw [← hsame.1, ← hsame.2.1]
      exact hwritten.ses
    · by_cases hends : d.graph.Ends q
      · have hend := (Front.ends_iff (d := d₁) (p := q) (hdelta ▸ hfound.front)).mpr
          (hgraph ▸ hends)
        rw [delta] at hdiagonal
        refine .inl ⟨hends, ?_, ?_⟩
        · rw [← ha]
          omega
        · rw [← hb]
          omega
      · have hlimit' := hfound.behind.resolve_left hends
        have hforward := hfound.progress hlimit hends hlimit'
        refine .inr ⟨hends, by omega, ?_⟩
        rw [← hfound.length]
        exact Int.ofNat_le.mpr hlimit'
    · rw [← hsame.2.2, ← hsame.1, ← hsame.2.1, ← ha₂, ← hb₂]
    · calc composeWithin limit (fuel + 1) d
          = (d₂.path.get (d₂.delta + d₂.offset)).bind fun r =>
              (trace d₂.pathCordinates (d₂.pathCordinates.length + 1) r).bind fun epc =>
                (d₂.record epc.reverse).bind fun c =>
                  if d₂.a.length ≤ c.px ∧ d₂.b.length ≤ c.py then some { d₂ with ses := c.ses }
                  else composeWithin limit fuel (d₂.restart c) := by
            rw [composeWithin, hsearch, hd₂]
            rfl
        _ = _ := by
            rw [hget, Option.bind_some, htrace, Option.bind_some, hrecorded, Option.bind_some,
              ha₂, hb₂]

/-- Search by search, the contents are used up. -/
theorem Fresh.exists_composeWithin (h : Fresh d) (limit fuel : ℕ) (hlimit : 2 ≤ limit)
    (hfuel : d.a.length + d.b.length < fuel) :
    ∃ (d' : Diff α) (parts : List (List (Edit α))), composeWithin limit fuel d = some d' ∧
      d'.ses = d.ses ++ parts.flatMap (fun s => numbered 1 1 (orient d.swapped s)) ∧
      Edit.before parts.flatten = d.a ∧ Edit.after parts.flatten = d.b ∧
      d.editDistance + Edit.changes parts.flatten ≤ d'.editDistance := by
  induction fuel generalizing d with
  | zero => omega
  | succ fuel ih =>
    obtain ⟨q, c, s, d₁, hsegment, hpath, hd₁, hcompose⟩ := h.exists_segment limit hlimit
    have hwritten := hsegment.written
    have hchanges := Edit.changes_eq s
    have hdiagonal := hsegment.diagonal
    have hdeletions := hsegment.deletions
    rw [hwritten.px, hwritten.py] at hdiagonal
    have hdistance : d₁.editDistance = d.editDistance + d.delta + 2 * q := by rw [hd₁]
    have hcost : d.editDistance + Edit.changes s ≤ d₁.editDistance := by omega
    rw [hcompose]
    split
    · rename_i hdone
      refine ⟨_, [s], rfl, ?_, ?_, ?_, ?_⟩
      · simpa using hwritten.ses
      · rw [List.flatten_singleton]
        exact hwritten.before.eq_of_length_le (by rw [← hwritten.px]; exact hdone.1)
      · rw [List.flatten_singleton]
        exact hwritten.after.eq_of_length_le (by rw [← hwritten.py]; exact hdone.2)
      · rw [List.flatten_singleton]
        exact hcost
    · rename_i hmore
      have ha : d₁.a = d.a := by rw [hd₁]
      have hb : d₁.b = d.b := by rw [hd₁]
      have hforward : 0 < c.py := by
        rcases hsegment.behind with ⟨-, hx, hy⟩ | ⟨-, hpos, -⟩
        · exact absurd ⟨hx.ge, hy.ge⟩ hmore
        · exact hpos
      have hfresh : Fresh (d₁.restart c) := by
        refine Written.restart (s := s) ?_ ?_ (by rw [ha, hb]; exact hpath)
        · rw [hd₁]
          exact ⟨hwritten.before, hwritten.after, hwritten.px, hwritten.py, hwritten.ses⟩
        · rw [hsegment.diagonal, delta, delta, ha, hb]
      have hrest : (d₁.restart c).a = d.a.drop (Edit.before s).length ∧
          (d₁.restart c).b = d.b.drop (Edit.after s).length := by
        rw [← ha, ← hb, ← hwritten.px, ← hwritten.py]
        exact ⟨rfl, rfl⟩
      obtain ⟨d', parts, hcompose', hses, hbefore, hafter, hcost'⟩ := ih hfresh (by
        have hle := hwritten.after.length_le
        rw [hrest.1, hrest.2, List.length_drop, List.length_drop, ← hwritten.py]
        rw [← hwritten.py] at hle
        omega)
      refine ⟨d', s :: parts, hcompose', ?_, ?_, ?_, ?_⟩
      · have hswapped : (d₁.restart c).swapped = d.swapped := by
          rw [hd₁]
          rfl
        rw [hses, hswapped, List.flatMap_cons, ← List.append_assoc, ← hwritten.ses]
        rfl
      · rw [List.flatten_cons, Edit.before_append, hbefore, hrest.1]
        exact List.prefix_iff_eq_append.mp hwritten.before
      · rw [List.flatten_cons, Edit.after_append, hafter, hrest.2]
        exact List.prefix_iff_eq_append.mp hwritten.after
      · have hkept : (d₁.restart c).editDistance = d₁.editDistance := rfl
        rw [List.flatten_cons, Edit.changes_append]
        omega

omit [DecidableEq α] in
theorem fresh_init (old new : List α) : Fresh (init old new) := by
  rw [init]
  split
  · rename_i hlt
    exact ⟨Nat.le_of_lt hlt, rfl, ⟨_, rfl, le_refl _⟩, rfl⟩
  · rename_i hle
    refine ⟨by simpa using hle, ?_, ⟨_, rfl, ?_⟩, rfl⟩
    · rw [Nat.add_comm old.length]
    · simp only
      omega

omit [DecidableEq α] in
theorem init_length (old new : List α) :
    (init old new).a.length + (init old new).b.length = old.length + new.length := by
  rw [init]
  split
  · rfl
  · exact Nat.add_comm ..

omit [DecidableEq α] in
/-- The contents in their own order. -/
theorem init_contents (old new : List α) (s : List (Edit α)) :
    (Edit.before s = (init old new).a ∧ Edit.after s = (init old new).b ↔
      Edit.before (orient (init old new).swapped s) = old ∧
        Edit.after (orient (init old new).swapped s) = new) := by
  rw [init]
  split
  · simp [orient]
  · simp [orient, and_comm]

end Diff

theorem orient_flatten (w : Bool) (parts : List (List (Edit α))) :
    orient w parts.flatten = (parts.map (orient w)).flatten := by
  induction parts with
  | nil => cases w <;> simp [orient]
  | cons s parts ih => rw [List.flatten_cons, orient_append, ih, List.map_cons, List.flatten_cons]

theorem orient_orient (w : Bool) (s : List (Edit α)) : orient w (orient w s) = s := by
  cases w <;> simp [orient, Function.comp_def]

theorem changes_orient (w : Bool) (s : List (Edit α)) :
    Edit.changes (orient w s) = Edit.changes s := by
  cases w <;> simp [orient]

variable [DecidableEq α]

/-- For any two contents the comparison ends, within its tables, with a script that turns the old
one into the new one. -/
theorem compose_returns (old new : List α) : ∃ d, compose old new = some d ∧
    Edit.before (d.ses.map edit) = old ∧ Edit.after (d.ses.map edit) = new ∧
    (Edit.changes (d.ses.map edit) : ℤ) ≤ d.editDistance := by
  obtain ⟨d, parts, hcompose, hses, hbefore, hafter, hcost⟩ :=
    (Diff.fresh_init old new).exists_composeWithin maxCordinatesSize
      (old.length + new.length + 1) (by decide) (by rw [Diff.init_length]; omega)
  have hscript : d.ses.map edit = orient (init old new).swapped parts.flatten := by
    have hnone : (init old new).ses = [] := by
      rw [init]
      split <;> rfl
    rw [hses, hnone, List.nil_append, List.map_flatMap, orient_flatten, List.flatMap_def]
    simp only [map_edit_numbered]
  obtain ⟨hold, hnew⟩ := (Diff.init_contents old new _).mp ⟨hbefore, hafter⟩
  refine ⟨d, hcompose, by rw [hscript, hold], by rw [hscript, hnew], ?_⟩
  have hzero : (init old new).editDistance = 0 := by
    rw [init]
    split <;> rfl
  rw [hscript, changes_orient]
  omega

/-- As long as the contents are not too different, one search is enough, and no script is
shorter than the one it finds. -/
theorem compose_shortest (t : List (Edit α)) (h : Edit.changes t ^ 2 < 4 * maxCordinatesSize) :
    ∃ d s, compose (Edit.before t) (Edit.after t) = some d ∧ d.ses = numbered 1 1 s ∧
      Edit.before s = Edit.before t ∧ Edit.after s = Edit.after t ∧
      d.editDistance = Edit.changes s ∧
      ∀ t', Edit.before t' = Edit.before t → Edit.after t' = Edit.after t →
        Edit.changes s ≤ Edit.changes t' := by
  generalize hold : Edit.before t = old
  generalize hnew : Edit.after t = new
  obtain ⟨q, c, s, d, hsegment, -, hd, hcompose⟩ :=
    (Diff.fresh_init old new).exists_segment maxCordinatesSize (by decide)
  generalize hinit : init old new = i at hsegment hd hcompose
  have hcontents := Diff.init_contents old new
  rw [hinit] at hcontents
  -- a script, seen from the shorter content
  have hturn : ∀ t', Edit.before t' = old → Edit.after t' = new → ∃ u : List (Edit α),
      Edit.changes u = i.delta + 2 * Edit.deletions u ∧ i.graph.Ends (Edit.deletions u) ∧
        Edit.changes u = Edit.changes t' := by
    intro t' hold' hnew'
    obtain ⟨ha, hb⟩ := (hcontents (orient i.swapped t')).mpr (by
      rw [orient_orient]
      exact ⟨hold', hnew'⟩)
    refine ⟨orient i.swapped t', ?_, ?_, changes_orient ..⟩
    · have hchanges := Edit.changes_eq (orient i.swapped t')
      rw [ha, hb] at hchanges
      rw [Diff.delta]
      omega
    · rw [Diff.graph, ← ha, ← hb]
      exact Edit.graph_ends _
  have hleast : ∀ {m : ℕ}, i.graph.Ends m → q ≤ m := by
    intro m hends
    by_contra hnot
    exact hsegment.before (hends.mono (by omega))
  rcases hsegment.behind with ⟨-, hpx, hpy⟩ | ⟨hends, -, hlimit⟩
  · have hwritten := hsegment.written
    have hbefore : Edit.before s = i.a := hwritten.before.eq_of_length (by rw [← hwritten.px, hpx])
    have hafter : Edit.after s = i.b := hwritten.after.eq_of_length (by rw [← hwritten.py, hpy])
    have hends : i.graph.Ends (Edit.deletions s) := by
      rw [Diff.graph, ← hbefore, ← hafter]
      exact Edit.graph_ends s
    have hdeletions := hsegment.deletions
    have hq := hleast hends
    have hchanges := Edit.changes_eq s
    rw [hbefore, hafter] at hchanges
    obtain ⟨hold', hnew'⟩ := (hcontents s).mp ⟨hbefore, hafter⟩
    have hfresh : i.ses = [] ∧ i.editDistance = 0 := by
      rw [← hinit, init]
      split <;> exact ⟨rfl, rfl⟩
    refine ⟨{ d with ses := c.ses }, orient i.swapped s, ?_, ?_, hold', hnew', ?_, ?_⟩
    · rw [compose, hinit, hcompose, if_pos ⟨hpx.ge, hpy.ge⟩]
    · rw [hwritten.ses, hfresh.1, List.nil_append]
    · rw [changes_orient, hd, hfresh.2]
      simp only [Diff.delta]
      omega
    · intro t' ht hu
      obtain ⟨u, hcost, hreached, hsame⟩ := hturn t' ht hu
      have hle := hleast hreached
      rw [changes_orient, ← hsame]
      rw [Diff.delta] at hcost
      omega
  · obtain ⟨u, hcost, hreached, hsame⟩ := hturn t hold hnew
    have hmore : q + 1 ≤ Edit.deletions u := by
      by_contra hnot
      exact hends (hreached.mono (by omega))
    have hnonneg : 0 ≤ i.delta := by
      have hshorter := (Diff.fresh_init old new).shorter
      rw [hinit] at hshorter
      rw [Diff.delta]
      omega
    have hproduct : ((q : ℤ) + 1) * (q + 1 + i.delta) ≤
        Edit.deletions u * (Edit.deletions u + i.delta) :=
      mul_le_mul (by omega) (by omega) (by omega) (by omega)
    have hsquare : (Edit.changes t : ℤ) ^ 2 =
        i.delta ^ 2 + 4 * (Edit.deletions u * (Edit.deletions u + i.delta)) := by
      rw [← hsame, hcost]
      ring
    have hpos := sq_nonneg i.delta
    have hsmall : (Edit.changes t : ℤ) ^ 2 < 4 * maxCordinatesSize := by exact_mod_cast h
    omega

theorem compose_shortest_oneLine : ∃ d s, compose ["port 22"] ["port 2222"] = some d ∧
    d.ses = numbered 1 1 s ∧ Edit.before s = ["port 22"] ∧ Edit.after s = ["port 2222"] ∧
    d.editDistance = Edit.changes s ∧
    ∀ t', Edit.before t' = ["port 22"] → Edit.after t' = ["port 2222"] →
      Edit.changes s ≤ Edit.changes t' :=
  compose_shortest [.delete "port 22", .add "port 2222"] (by decide)

end Ctguard.Dtl
