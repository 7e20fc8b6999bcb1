import Ctguard.DiffScripts
import Mathlib.Data.List.Perm.Basic

/-!
# The hunks of a difference

`composeUnifiedHunks` walks over a script and gathers its changes, with three common lines around
them. A hunk is closed when three common lines have passed and the next ones are common as well,
or when the script is over. Within a run of changes the deleted lines go first.
-/

namespace Ctguard.Dtl

variable {α : Type}

/-- `DTL_SEPARATE_SIZE`. -/
def separateSize : ℕ := 3

/-- `DTL_CONTEXT_SIZE`. -/
def contextSize : ℕ := 3

/-- `uniHunk`. Its header reads `@@ -a,b +c,d @@`. -/
structure UniHunk (α : Type) where
  a : ℤ
  b : ℤ
  c : ℤ
  d : ℤ
  common0 : List (SesElem α)
  change : List (SesElem α)
  common1 : List (SesElem α)
  incDecCount : ℤ

/-- The variables of `composeUnifiedHunks`. -/
structure Composing (α : Type) where
  common0 : List (SesElem α) := []
  common1 : List (SesElem α) := []
  change : List (SesElem α) := []
  adds : List (SesElem α) := []
  deletes : List (SesElem α) := []
  middle : ℕ := 0
  isMiddle : Bool := false
  isAfter : Bool := false
  a : ℤ := 0
  b : ℤ := 0
  c : ℤ := 0
  d : ℤ := 0
  incDecCount : ℤ := 0
  uniHunks : List (UniHunk α) := []

namespace Composing

/-- The deleted lines join the change, and then the added ones. -/
def joined (h : Composing α) : List (SesElem α) := h.change ++ h.deletes ++ h.adds

/-- Behind the last element, there is nothing to wait for. -/
def finish (last : Bool) (h : Composing α) : Composing α :=
  if last then { h with change := h.joined, isAfter := true } else h

def onAdd (last : Bool) (e : SesElem α) (h : Composing α) : Composing α :=
  finish last { h with
    middle := 0, incDecCount := h.incDecCount + 1, adds := h.adds ++ [e], isMiddle := true
    d := h.d + 1 }

def onDelete (last : Bool) (e : SesElem α) (h : Composing α) : Composing α :=
  finish last { h with
    middle := 0, incDecCount := h.incDecCount - 1, deletes := h.deletes ++ [e], isMiddle := true
    b := h.b + 1 }

/-- A common line in front of a change. Only the last three are kept. -/
def lead (swapped : Bool) (e : SesElem α) (h : Composing α) : Composing α :=
  if h.common0.length < contextSize then
    let h :=
      if h.a = 0 ∧ h.c = 0 then
        if swapped then { h with a := e.2.afterIdx, c := e.2.beforeIdx }
        else { h with a := e.2.beforeIdx, c := e.2.afterIdx }
      else h
    { h with common0 := h.common0 ++ [e] }
  else
    { h with
      common0 := h.common0.tail ++ [e], a := h.a + 1, c := h.c + 1, b := h.b - 1, d := h.d - 1 }

/-- A common line behind a change. -/
def follow (last : Bool) (e : SesElem α) (h : Composing α) : Composing α :=
  if h.isMiddle && !h.isAfter then
    { h with
      middle := h.middle + 1, change := h.joined ++ [e]
      isAfter := decide (separateSize ≤ h.middle + 1) || last, adds := [], deletes := [] }
  else h

def onCommon (swapped last : Bool) (e : SesElem α) (h : Composing α) : Composing α :=
  let h := { h with b := h.b + 1, d := h.d + 1 }
  follow last e <|
    if h.common1.isEmpty && h.adds.isEmpty && h.deletes.isEmpty && h.change.isEmpty then
      h.lead swapped e
    else h

/-- The hunk is put down, and the next one starts from nothing. -/
def push (swapped : Bool) (h : Composing α) : Composing α :=
  let cut := h.common0.length - separateSize
  let a := if h.a + cut = 0 then 1 else h.a + cut
  let c := if h.c + cut = 0 then 1 else h.c + cut
  { uniHunks := h.uniHunks ++ [{
      a := if swapped then c else a, b := h.b, c := if swapped then a else c, d := h.d
      common0 := h.common0.drop cut, change := h.change, common1 := h.common1
      incDecCount := h.incDecCount }] }

def isCommon (e : SesElem α) : Bool := e.2.type == .common

/-- The end of a hunk, unless a change comes soon. -/
def close (swapped : Bool) (e : SesElem α) (rest : List (SesElem α)) (h : Composing α) :
    Composing α :=
  if h.isAfter && !h.change.isEmpty then
    if ((e :: rest).take separateSize).countP isCommon < separateSize && !rest.isEmpty then
      { h with middle := 0, isAfter := false }
    else h.push swapped
  else h

/-- One element of the script. `rest` is what comes behind it. -/
def step (swapped : Bool) (e : SesElem α) (rest : List (SesElem α)) (h : Composing α) :
    Composing α :=
  close swapped e rest <| match e.2.type with
    | .add => h.onAdd rest.isEmpty e
    | .delete => h.onDelete rest.isEmpty e
    | .common => h.onCommon swapped rest.isEmpty e

def steps (swapped : Bool) : List (SesElem α) → Composing α → Composing α
  | [], h => h
  | e :: rest, h => steps swapped rest (h.step swapped e rest)

end Composing

def composeUnifiedHunks (swapped : Bool) (ses : List (SesElem α)) : List (UniHunk α) :=
  (Composing.steps swapped ses {}).uniHunks

/-- The edits of a hunk. -/
def UniHunk.lines (h : UniHunk α) : List (Edit α) :=
  (h.common0 ++ h.change ++ h.common1).map edit

/-- Nothing is deleted or added. -/
def Unchanged (s : List (Edit α)) : Prop := ∀ e ∈ s, ∃ x, e = .common x

/-- The hunk has the edits of a piece of the script, which lies behind so many lines of the two
contents. -/
structure UniHunk.Stands (ordered : Prop) (i j : ℕ) (h : UniHunk α) (piece : List (Edit α)) :
    Prop where
  common0 : Unchanged (h.common0.map edit)
  common1 : h.common1 = []
  perm : h.lines.Perm piece
  before : Edit.before h.lines = Edit.before piece
  after : Edit.after h.lines = Edit.after piece
  b : h.b = (Edit.before piece).length
  d : h.d = (Edit.after piece).length
  position : ordered → h.a = i + 1 ∧ h.c = j + 1

/-- The script is made of the hunks, and of common lines between them. -/
inductive Laid (ordered : Prop) : ℕ → ℕ → List (UniHunk α) → List (Edit α) → Prop
  | rest {i j : ℕ} {gap : List (Edit α)} (hgap : Unchanged gap) : Laid ordered i j [] gap
  | hunk {i j : ℕ} {gap piece s : List (Edit α)} {h : UniHunk α} {hs : List (UniHunk α)}
      (hgap : Unchanged gap) (hstands : h.Stands ordered (i + gap.length) (j + gap.length) piece)
      (hrest : Laid ordered (i + gap.length + (Edit.before piece).length)
        (j + gap.length + (Edit.after piece).length) hs s) :
      Laid ordered i j (h :: hs) (gap ++ piece ++ s)

section Laid

variable {ordered : Prop} {i j : ℕ} {gap piece s t : List (Edit α)} {h : UniHunk α}
  {hs : List (UniHunk α)}

theorem Unchanged.before_eq (h : Unchanged gap) : Edit.before gap = Edit.after gap := by
  induction gap with
  | nil => rfl
  | cons e gap ih =>
    obtain ⟨x, rfl⟩ := h e List.mem_cons_self
    rw [Edit.before, Edit.after, ih fun e he => h e (List.mem_cons_of_mem _ he)]

theorem Unchanged.length_before (h : Unchanged gap) : (Edit.before gap).length = gap.length := by
  induction gap with
  | nil => rfl
  | cons e gap ih =>
    obtain ⟨x, rfl⟩ := h e List.mem_cons_self
    rw [Edit.before, List.length_cons, ih fun e he => h e (List.mem_cons_of_mem _ he),
      List.length_cons]

theorem Unchanged.length_after (h : Unchanged gap) : (Edit.after gap).length = gap.length := by
  rw [← h.before_eq, h.length_before]

theorem Unchanged.append (h : Unchanged s) (h' : Unchanged t) : Unchanged (s ++ t) := by
  intro e he
  rcases List.mem_append.mp he with he | he
  · exact h e he
  · exact h' e he

theorem Laid.snoc_gap (h : Laid ordered i j hs s) (hgap : Unchanged gap) :
    Laid ordered i j hs (s ++ gap) := by
  induction h with
  | rest hgap' => exact .rest (hgap'.append hgap)
  | hunk hgap' hstands _ ih =>
    rw [List.append_assoc]
    exact .hunk hgap' hstands ih

theorem Laid.snoc (hlaid : Laid ordered i j hs s)
    (hstands : h.Stands ordered (i + (Edit.before s).length) (j + (Edit.after s).length) piece) :
    Laid ordered i j (hs ++ [h]) (s ++ piece) := by
  induction hlaid with
  | @rest i j gap hgap =>
    rw [hgap.length_before, hgap.length_after] at hstands
    have hnone : Unchanged ([] : List (Edit α)) := by simp [Unchanged]
    have hlaid := Laid.hunk hgap hstands (.rest hnone)
    rwa [List.append_nil] at hlaid
  | @hunk i j gap piece' s h' hs hgap hstands' _ ih =>
    rw [List.append_assoc]
    refine .hunk hgap hstands' (ih ?_)
    convert hstands using 1
    · simp only [Edit.before_append, List.length_append, hgap.length_before]
      omega
    · simp only [Edit.after_append, List.length_append, hgap.length_after]
      omega

end Laid

namespace Composing

/-- Where the current hunk starts, if it has a line of context. -/
def start (swapped : Bool) (h : Composing α) : ℤ × ℤ :=
  if swapped then (h.c, h.a) else (h.a, h.c)

/-- The script up to here: what the hunks are made of, the context of the next one, and its piece,
of which the lines have been gathered. -/
structure Gathers (ordered : Prop) (swapped : Bool) (pre : List (Edit α))
    (lines : List (SesElem α)) (h : Composing α) (passed piece : List (Edit α)) : Prop where
  split : pre = passed ++ h.common0.map edit ++ piece
  laid : Laid ordered 0 0 h.uniHunks passed
  unchanged : Unchanged (h.common0.map edit)
  length : h.common0.length ≤ contextSize
  common1 : h.common1 = []
  perm : (lines.map edit).Perm piece
  before : Edit.before (lines.map edit) = Edit.before piece
  after : Edit.after (lines.map edit) = Edit.after piece
  b : h.b = h.common0.length + (Edit.before piece).length
  d : h.d = h.common0.length + (Edit.after piece).length
  -- without context, a hunk is the first one
  first : h.common0 = [] → piece ≠ [] → passed = []
  none : h.common0 = [] → h.a = 0 ∧ h.c = 0
  position : ordered → h.common0 ≠ [] →
    h.start swapped = (↑((Edit.before passed).length + 1), ↑((Edit.after passed).length + 1))

/-- Between two elements of the script. -/
structure Pending (ordered : Prop) (swapped : Bool) (pre : List (Edit α))
    (rest : List (SesElem α)) (h : Composing α) (passed piece : List (Edit α)) : Prop where
  gathers : Gathers ordered swapped pre h.joined h passed piece
  isAfter : h.isAfter = false
  adds : Edit.before (h.adds.map edit) = []
  isMiddle : h.isMiddle = true ↔ h.joined ≠ []
  more : h.isMiddle = true → rest ≠ []
  next : h.common0 = [] → piece = [] → passed ≠ [] → ∀ e r, rest = e :: r → e.2.type = .common

variable {ordered : Prop} {swapped : Bool} {pre passed piece : List (Edit α)}
  {e : SesElem α} {lines rest : List (SesElem α)} {h : Composing α}

/-- A closed hunk stands for its context and its piece. -/
theorem Gathers.push (hg : Gathers ordered swapped pre h.change h passed piece)
    (hpiece : piece ≠ []) : Laid ordered 0 0 (h.push swapped).uniHunks pre := by
  have hcut : h.common0.length - separateSize = 0 := Nat.sub_eq_zero_of_le hg.length
  rw [hg.split, List.append_assoc]
  refine hg.laid.snoc ?_
  have hlines : ((h.common0.drop 0 ++ h.change ++ h.common1).map edit) =
      h.common0.map edit ++ h.change.map edit := by simp [hg.common1]
  have hside := hg.unchanged.length_before
  have hside' := hg.unchanged.length_after
  rw [List.length_map] at hside hside'
  rw [hcut]
  refine ⟨hg.unchanged, hg.common1, ?_, ?_, ?_, ?_, ?_, fun hordered => ?_⟩
  · rw [UniHunk.lines, hlines]
    exact hg.perm.append_left _
  · rw [UniHunk.lines, hlines, Edit.before_append, hg.before, Edit.before_append]
  · rw [UniHunk.lines, hlines, Edit.after_append, hg.after, Edit.after_append]
  · rw [Edit.before_append, List.length_append, hside, Nat.cast_add]
    exact hg.b
  · rw [Edit.after_append, List.length_append, hside', Nat.cast_add]
    exact hg.d
  · simp only [Nat.zero_add, Nat.cast_zero, Int.add_zero]
    by_cases hnone : h.common0 = []
    · obtain ⟨ha, hc⟩ := hg.none hnone
      rw [hg.first hnone hpiece, ha, hc]
      simp [Edit.before, Edit.after]
    · have hstart := hg.position hordered hnone
      rw [start] at hstart
      cases swapped
      · simp only [Bool.false_eq_true, if_false, Prod.mk.injEq] at hstart ⊢
        rw [if_neg (by omega), if_neg (by omega)]
        omega
      · simp only [if_true, Prod.mk.injEq] at hstart ⊢
        rw [if_neg (by omega), if_neg (by omega)]
        omega

theorem Pending.push (hg : Gathers ordered swapped pre h.change h passed piece)
    (hpiece : piece ≠ []) (hnext : ∀ e r, rest = e :: r → e.2.type = .common) :
    Pending ordered swapped pre rest (h.push swapped) pre [] where
  gathers := by
    refine ⟨by simp [Composing.push], hg.push hpiece, by simp [Unchanged, Composing.push], ?_, rfl,
      .refl _, rfl, rfl, ?_, ?_, ?_, fun _ => ⟨rfl, rfl⟩, ?_⟩
    all_goals simp [Composing.push, Edit.before, Edit.after]
  isAfter := rfl
  adds := rfl
  isMiddle := by simp [Composing.push, joined]
  more := by simp [Composing.push]
  next _ _ _ := hnext

/-- One more element of the piece. -/
theorem Gathers.grow (hg : Gathers ordered swapped pre lines h passed piece)
    (h' : Composing α) (lines' : List (SesElem α)) (hcommon0 : h'.common0 = h.common0)
    (hcommon1 : h'.common1 = h.common1) (huni : h'.uniHunks = h.uniHunks) (ha : h'.a = h.a)
    (hc : h'.c = h.c) (hb : h'.b = h.b + (Edit.before [edit e]).length)
    (hd : h'.d = h.d + (Edit.after [edit e]).length)
    (hperm : (lines'.map edit).Perm (lines.map edit ++ [edit e]))
    (hbefore : Edit.before (lines'.map edit) = Edit.before (lines.map edit ++ [edit e]))
    (hafter : Edit.after (lines'.map edit) = Edit.after (lines.map edit ++ [edit e]))
    (hfirst : h.common0 = [] → piece = [] → passed = []) :
    Gathers ordered swapped (pre ++ [edit e]) lines' h' passed (piece ++ [edit e]) where
  split := by rw [hg.split, hcommon0, List.append_assoc]
  laid := huni ▸ hg.laid
  unchanged := hcommon0 ▸ hg.unchanged
  length := hcommon0 ▸ hg.length
  common1 := hcommon1.trans hg.common1
  perm := hperm.trans (hg.perm.append_right _)
  before := by rw [hbefore, Edit.before_append, hg.before, Edit.before_append]
  after := by rw [hafter, Edit.after_append, hg.after, Edit.after_append]
  b := by
    rw [hb, hg.b, hcommon0, Edit.before_append, List.length_append, Nat.cast_add, Int.add_assoc]
  d := by
    rw [hd, hg.d, hcommon0, Edit.after_append, List.length_append, Nat.cast_add, Int.add_assoc]
  first hnone _ := by
    rw [hcommon0] at hnone
    by_cases hpiece : piece = []
    · exact hfirst hnone hpiece
    · exact hg.first hnone hpiece
  none hnone := by
    rw [hcommon0] at hnone
    rw [ha, hc]
    exact hg.none hnone
  position hordered hsome := by
    rw [hcommon0] at hsome
    rw [start, ha, hc]
    exact hg.position hordered hsome

theorem Pending.first (hp : Pending ordered swapped pre (e :: rest) h passed piece)
    (he : e.2.type ≠ .common) (hnone : h.common0 = []) (hpiece : piece = []) : passed = [] := by
  by_contra hpassed
  exact he (hp.next hnone hpiece hpassed e rest rfl)

theorem close_of_isAfter_eq_false (hafter : h.isAfter = false) : h.close swapped e rest = h := by
  rw [close, hafter]
  rfl

theorem close_of_last (hafter : h.isAfter = true) (hchange : h.change ≠ []) :
    h.close swapped e [] = h.push swapped := by
  simp [close, hafter, hchange]

/-- A deleted or added line keeps the hunk open, unless it is the last one. -/
theorem Pending.change (hp : Pending ordered swapped pre (e :: rest) h passed piece)
    {h' : Composing α}
    (hg : Gathers ordered swapped (pre ++ [edit e]) h'.joined h' passed (piece ++ [edit e]))
    (hmiddle : h'.isMiddle = true) (hafter : h'.isAfter = h.isAfter)
    (hadds : Edit.before (h'.adds.map edit) = []) :
    ∃ passed' piece', Pending ordered swapped (pre ++ [edit e]) rest
      (close swapped e rest (finish rest.isEmpty h')) passed' piece' := by
  have hpiece : piece ++ [edit e] ≠ [] := by simp
  have hjoined : h'.joined ≠ [] := by
    intro hnil
    have hperm := hg.perm
    rw [hnil, List.map_nil, List.nil_perm] at hperm
    exact hpiece hperm
  cases rest with
  | nil =>
    rw [List.isEmpty_nil, finish, if_pos rfl, close_of_last rfl hjoined]
    have hg' : Gathers ordered swapped (pre ++ [edit e]) h'.joined
        { h' with change := h'.joined, isAfter := true } passed (piece ++ [edit e]) :=
      ⟨hg.split, hg.laid, hg.unchanged, hg.length, hg.common1, hg.perm, hg.before, hg.after,
        hg.b, hg.d, hg.first, hg.none, hg.position⟩
    exact ⟨pre ++ [edit e], [], .push hg' hpiece (by simp)⟩
  | cons e' rest =>
    rw [List.isEmpty_cons, finish, if_neg (by decide),
      close_of_isAfter_eq_false (hafter.trans hp.isAfter)]
    refine ⟨passed, piece ++ [edit e], hg, hafter.trans hp.isAfter, hadds, ?_, fun _ => by simp,
      fun _ hnil => absurd hnil hpiece⟩
    exact ⟨fun _ => hjoined, fun _ => hmiddle⟩

theorem Pending.onAdd (hp : Pending ordered swapped pre (e :: rest) h passed piece)
    (he : e.2.type = .add) : ∃ passed' piece', Pending ordered swapped (pre ++ [edit e]) rest
      (close swapped e rest (h.onAdd rest.isEmpty e)) passed' piece' := by
  have hedit : edit e = .add e.1 := by rw [edit, he]
  refine hp.change (hp.gathers.grow _ _ rfl rfl rfl rfl rfl ?_ ?_ ?_ ?_ ?_ ?_) rfl rfl ?_
  · simp [hedit, Edit.before]
  · simp [hedit, Edit.after]
  · simp [joined]
  · simp [joined]
  · simp [joined]
  · exact hp.first (by rw [he]; decide)
  · simp [hp.adds, hedit, Edit.before]

theorem Pending.onDelete (hp : Pending ordered swapped pre (e :: rest) h passed piece)
    (he : e.2.type = .delete) : ∃ passed' piece', Pending ordered swapped (pre ++ [edit e]) rest
      (close swapped e rest (h.onDelete rest.isEmpty e)) passed' piece' := by
  have hedit : edit e = .delete e.1 := by rw [edit, he]
  refine hp.change (hp.gathers.grow _ _ rfl rfl rfl rfl rfl ?_ ?_ ?_ ?_ ?_ ?_) rfl rfl hp.adds
  · simp [hedit, Edit.before]
  · simp [hedit, Edit.after]
  · -- the deleted line goes before the added ones
    simp only [joined, List.map_append, List.append_assoc]
    exact ((List.perm_append_comm).append_left _).append_left _
  · simp [joined, hp.adds, hedit, Edit.before]
  · simp [joined, hedit, Edit.after]
  · exact hp.first (by rw [he]; decide)

/-- Between hunks, the context has got a new last line. -/
theorem Pending.widen (front : List (SesElem α)) (hsplit : pre = passed ++ front.map edit)
    (hlaid : Laid ordered 0 0 h.uniHunks passed) (hunchanged : Unchanged (front.map edit))
    (hlength : front.length < contextSize) (he : e.2.type = .common)
    (hcommon0 : h.common0 = front ++ [e]) (hcommon1 : h.common1 = []) (hjoined : h.joined = [])
    (hisAfter : h.isAfter = false) (hidle : h.isMiddle = false) (hb : h.b = front.length + 1)
    (hd : h.d = front.length + 1)
    (hposition : ordered → h.start swapped =
      (↑((Edit.before passed).length + 1), ↑((Edit.after passed).length + 1))) :
    Pending ordered swapped (pre ++ [edit e]) rest h passed [] where
  gathers := by
    have hsome : h.common0 ≠ [] := by simp [hcommon0]
    refine ⟨by simp [hcommon0, hsplit], hlaid, ?_, by simpa [hcommon0] using Nat.succ_le_of_lt hlength,
      hcommon1,
      by simp [hjoined], by simp [hjoined], by simp [hjoined], by simp [hcommon0, hb, Edit.before],
      by simp [hcommon0, hd, Edit.after], fun hnone => absurd hnone hsome,
      fun hnone => absurd hnone hsome, fun hordered _ => hposition hordered⟩
    rw [hcommon0, List.map_append]
    exact hunchanged.append (by simp [Unchanged, edit, he])
  isAfter := hisAfter
  adds := by
    have hadds : h.adds = [] := (List.append_eq_nil_iff.mp hjoined).2
    rw [hadds]
    rfl
  isMiddle := by simp [hidle, hjoined]
  more hbusy := by simp [hidle] at hbusy
  next hnone := by simp [hcommon0] at hnone

/-- A common line between hunks joins the context of the next one. -/
theorem Pending.lead (hp : Pending ordered swapped pre (e :: rest) h passed piece)
    (he : e.2.type = .common) (hidle : h.isMiddle = false)
    (hinfo : ordered → e.2.beforeIdx = (Edit.before pre).length + 1 ∧
      e.2.afterIdx = (Edit.after pre).length + 1) :
    ∃ passed', Pending ordered swapped (pre ++ [edit e]) rest
      (Composing.lead swapped e { h with b := h.b + 1, d := h.d + 1 }) passed' [] := by
  have hjoined : h.joined = [] := by
    by_contra hne
    rw [hp.isMiddle.mpr hne] at hidle
    cases hidle
  have hg := hp.gathers
  obtain rfl : piece = [] := by
    have hperm := hg.perm
    rwa [hjoined, List.map_nil, List.nil_perm] at hperm
  have hsplit := hg.split
  rw [List.append_nil] at hsplit
  have hb : h.b = h.common0.length := by simpa [Edit.before] using hg.b
  have hd : h.d = h.common0.length := by simpa [Edit.after] using hg.d
  rw [Composing.lead]
  simp only
  by_cases hroom : h.common0.length < contextSize
  · rw [if_pos hroom]
    have hposition : ordered → h.common0 = [] → e.2.beforeIdx = ↑((Edit.before passed).length + 1) ∧
        e.2.afterIdx = ↑((Edit.after passed).length + 1) := by
      intro hordered hnone
      rw [hnone, List.map_nil, List.append_nil] at hsplit
      rw [← hsplit]
      exact hinfo hordered
    have hstart : ordered → h.common0 ≠ [] → ¬ (h.a = 0 ∧ h.c = 0) := by
      intro hordered hsome hzero
      have hposition' := hg.position hordered hsome
      rw [start, hzero.1, hzero.2, ite_self, Prod.mk.injEq] at hposition'
      omega
    refine ⟨passed, ?_⟩
    by_cases hzero : h.a = 0 ∧ h.c = 0
    · rw [if_pos hzero]
      have hnone : ordered → h.common0 = [] := by
        intro hordered
        by_contra hsome
        exact hstart hordered hsome hzero
      cases swapped
      all_goals
        refine Pending.widen _ hsplit hg.laid hg.unchanged hroom he rfl hg.common1 hjoined
          hp.isAfter hidle (by simp [hb]) (by simp [hd]) fun hordered => ?_
        obtain ⟨hbefore, hafter⟩ := hposition hordered (hnone hordered)
        simp [start, hbefore, hafter]
    · rw [if_neg hzero]
      refine Pending.widen _ hsplit hg.laid hg.unchanged hroom he rfl hg.common1 hjoined
        hp.isAfter hidle (by simp [hb]) (by simp [hd]) fun hordered => ?_
      exact hg.position hordered fun hnone => hzero (hg.none hnone)
  · rw [if_neg hroom]
    have hfull := hg.length
    cases hcommon0 : h.common0 with
    | nil => simp [hcommon0, contextSize] at hroom
    | cons x front =>
      rw [hcommon0, List.length_cons] at hroom hfull
      have hunchanged := hg.unchanged
      rw [hcommon0, List.map_cons] at hunchanged hsplit
      obtain ⟨y, hy⟩ := hunchanged (edit x) List.mem_cons_self
      have hgap : Unchanged [edit x] := by simp [Unchanged, hy]
      refine ⟨passed ++ [edit x], Pending.widen front ?_ (hg.laid.snoc_gap hgap)
        (fun z hz => hunchanged z (List.mem_cons_of_mem _ hz)) (by omega) he rfl hg.common1 hjoined
        hp.isAfter hidle ?_ ?_ fun hordered => ?_⟩
      · simp [hsplit]
      · rw [hcommon0, List.length_cons] at hb
        simp only
        omega
      · rw [hcommon0, List.length_cons] at hd
        simp only
        omega
      · have hposition := hg.position hordered (by simp [hcommon0])
        rw [start, Prod.ext_iff] at hposition
        rw [start, Prod.ext_iff, hy]
        cases swapped
        all_goals simpa [Edit.before, Edit.after] using hposition

theorem close_of_waiting (hmore : ((e :: rest).take separateSize).countP isCommon < separateSize)
    (hrest : rest ≠ []) (hafter : h.isAfter = true) (hchange : h.change ≠ []) :
    h.close swapped e rest = { h with middle := 0, isAfter := false } := by
  rw [close, if_pos (by simp [hafter, hchange]), if_pos (by simp [hmore, hrest])]

theorem close_of_common (hmore : rest = [] ∨
      ¬ ((e :: rest).take separateSize).countP isCommon < separateSize)
    (hafter : h.isAfter = true) (hchange : h.change ≠ []) :
    h.close swapped e rest = h.push swapped := by
  rw [close, if_pos (by simp [hafter, hchange]), if_neg]
  rcases hmore with rfl | hmore <;> simp_all

/-- If three elements are common, so is the one behind the first. -/
theorem next_of_common (hmore : ¬ ((e :: rest).take separateSize).countP isCommon < separateSize) :
    ∀ e' r, rest = e' :: r → e'.2.type = .common := by
  rintro e' r rfl
  have hle := List.countP_le_length (p := isCommon) (l := (e :: e' :: r).take separateSize)
  have hlength : ((e :: e' :: r).take separateSize).length ≤ separateSize :=
    List.length_take_le ..
  have hall := List.countP_eq_length.mp (Nat.le_antisymm hle (by omega)) e' (by simp [separateSize])
  simpa [isCommon] using hall

/-- A common line behind a change joins it, and may close the hunk. -/
theorem Pending.follow (hp : Pending ordered swapped pre (e :: rest) h passed piece)
    (he : e.2.type = .common) (hbusy : h.isMiddle = true) (last : Bool) (hlast : rest = [] → last) :
    ∃ passed' piece', Pending ordered swapped (pre ++ [edit e]) rest (close swapped e rest { h with
      b := h.b + 1, d := h.d + 1, middle := h.middle + 1, change := h.joined ++ [e]
      isAfter := last, adds := [], deletes := [] }) passed' piece' := by
  have hedit : edit e = .common e.1 := by rw [edit, he]
  have hg : ∀ n after, Gathers ordered swapped (pre ++ [edit e]) (h.joined ++ [e]) { h with
      b := h.b + 1, d := h.d + 1, middle := n, change := h.joined ++ [e], isAfter := after
      adds := [], deletes := [] } passed (piece ++ [edit e]) := fun n after =>
    hp.gathers.grow _ _ rfl rfl rfl rfl rfl (by simp [hedit, Edit.before])
      (by simp [hedit, Edit.after]) (by simp) (by simp) (by simp) fun hnone hpiece => by
        have hperm := hp.gathers.perm
        rw [hpiece, List.perm_nil, List.map_eq_nil_iff] at hperm
        exact absurd hperm (hp.isMiddle.mp hbusy)
  have hpiece : piece ++ [edit e] ≠ [] := by simp
  cases last with
  | false =>
    rw [close_of_isAfter_eq_false rfl]
    exact ⟨passed, piece ++ [edit e], by simpa [joined] using hg _ false, rfl, rfl,
      by simp [joined, hbusy], fun _ hnil => by simpa using hlast hnil, fun _ hnil => absurd hnil hpiece⟩
  | true =>
    by_cases hmore : rest = [] ∨ ¬ ((e :: rest).take separateSize).countP isCommon < separateSize
    · rw [close_of_common hmore rfl (by simp)]
      refine ⟨pre ++ [edit e], [], .push (hg _ true) hpiece ?_⟩
      rcases hmore with rfl | hmore
      · simp
      · exact next_of_common hmore
    · obtain ⟨hrest, hfew⟩ := not_or.mp hmore
      rw [close_of_waiting (not_not.mp hfew) hrest rfl (by simp)]
      exact ⟨passed, piece ++ [edit e], by simpa [joined] using hg 0 false, rfl, rfl,
        by simp [joined, hbusy], fun _ => hrest, fun _ hnil => absurd hnil hpiece⟩

theorem Pending.onCommon (hp : Pending ordered swapped pre (e :: rest) h passed piece)
    (he : e.2.type = .common)
    (hinfo : ordered → e.2.beforeIdx = (Edit.before pre).length + 1 ∧
      e.2.afterIdx = (Edit.after pre).length + 1) :
    ∃ passed' piece', Pending ordered swapped (pre ++ [edit e]) rest
      (close swapped e rest (h.onCommon swapped rest.isEmpty e)) passed' piece' := by
  by_cases hbusy : h.isMiddle = true
  · have hsome : ¬ (h.common1.isEmpty && h.adds.isEmpty && h.deletes.isEmpty &&
        h.change.isEmpty) = true := by
      have hjoined := hp.isMiddle.mp hbusy
      simp only [joined, ne_eq, List.append_eq_nil_iff] at hjoined
      simp only [Bool.and_eq_true, List.isEmpty_iff]
      tauto
    rw [Composing.onCommon, if_neg hsome, Composing.follow, if_pos (by simp [hbusy, hp.isAfter])]
    exact hp.follow he hbusy _ (by simp +contextual)
  · rw [Bool.not_eq_true] at hbusy
    have hnone : (h.common1.isEmpty && h.adds.isEmpty && h.deletes.isEmpty &&
        h.change.isEmpty) = true := by
      have hjoined : ¬ h.joined ≠ [] := fun hne => by simp [hp.isMiddle.mpr hne] at hbusy
      simp only [joined, ne_eq, not_not, List.append_eq_nil_iff] at hjoined
      simp only [Bool.and_eq_true, List.isEmpty_iff]
      exact ⟨⟨⟨hp.gathers.common1, hjoined.2⟩, hjoined.1.2⟩, hjoined.1.1⟩
    obtain ⟨passed', hp'⟩ := hp.lead he hbusy hinfo
    have hidle : (Composing.lead swapped e { h with b := h.b + 1, d := h.d + 1 }).isMiddle = false := by
      rw [← Bool.not_eq_true, hp'.isMiddle, not_not]
      simpa using hp'.gathers.perm
    rw [Composing.onCommon, if_pos hnone, Composing.follow, if_neg (by simp [hidle]),
      close_of_isAfter_eq_false hp'.isAfter]
    exact ⟨passed', [], hp'⟩

theorem Pending.step (hp : Pending ordered swapped pre (e :: rest) h passed piece)
    (hinfo : ordered → e.2.type = .common → e.2.beforeIdx = (Edit.before pre).length + 1 ∧
      e.2.afterIdx = (Edit.after pre).length + 1) :
    ∃ passed' piece', Pending ordered swapped (pre ++ [edit e]) rest (h.step swapped e rest)
      passed' piece' := by
  rw [Composing.step]
  cases he : e.2.type with
  | add => exact hp.onAdd he
  | delete => exact hp.onDelete he
  | common => exact hp.onCommon he fun hordered => hinfo hordered he

theorem numbered_cons {i j : ℕ} {s : List (Edit α)} {x : Edit α}
    (h : e :: rest = numbered i j (x :: s)) : [e] = numbered i j [x] ∧
      rest = numbered (i + (Edit.before [x]).length) (j + (Edit.after [x]).length) s := by
  rw [show x :: s = [x] ++ s from rfl, numbered_append] at h
  have hlength : [e].length = (numbered i j [x]).length := by cases x <;> rfl
  exact List.append_inj h hlength

theorem Pending.steps (hp : Pending ordered swapped pre rest h passed piece)
    (hinfo : ordered → rest = numbered ((Edit.before pre).length + 1)
      ((Edit.after pre).length + 1) (rest.map edit)) :
    Laid ordered 0 0 (h.steps swapped rest).uniHunks (pre ++ rest.map edit) := by
  induction rest generalizing h pre passed piece with
  | nil =>
    have hpiece : piece = [] := by
      have hjoined : ¬ h.joined ≠ [] := fun hne => hp.more (hp.isMiddle.mpr hne) rfl
      have hperm := hp.gathers.perm
      rwa [not_not.mp hjoined, List.map_nil, List.nil_perm] at hperm
    rw [List.map_nil, List.append_nil, hp.gathers.split, hpiece, List.append_nil]
    exact hp.gathers.laid.snoc_gap hp.gathers.unchanged
  | cons e rest ih =>
    obtain ⟨passed', piece', hp'⟩ := hp.step fun hordered he => by
      have hhead := (numbered_cons (hinfo hordered)).1
      rw [show edit e = .common e.1 by rw [edit, he], numbered, numbered] at hhead
      rw [List.head_eq_of_cons_eq hhead]
      exact ⟨rfl, rfl⟩
    have hlaid := ih hp' fun hordered => by
      have htail := (numbered_cons (hinfo hordered)).2
      rw [Edit.before_append, Edit.after_append, List.length_append, List.length_append]
      rwa [Nat.add_right_comm, Nat.add_right_comm (Edit.after pre).length] at htail
    rwa [List.append_assoc] at hlaid

end Composing

/-- The hunks of a script. If its lines have the right numbers, so have the headers. -/
theorem composeUnifiedHunks_laid (swapped : Bool) (ses : List (SesElem α)) :
    Laid (ses = numbered 1 1 (ses.map edit)) 0 0 (composeUnifiedHunks swapped ses)
      (ses.map edit) := by
  have hp : Composing.Pending (ses = numbered 1 1 (ses.map edit)) swapped [] ses {} [] [] := by
    refine ⟨⟨rfl, .rest ?_, ?_, ?_, rfl, .refl _, rfl, rfl, rfl, rfl, ?_, fun _ => ⟨rfl, rfl⟩, ?_⟩,
      rfl, rfl, ?_, ?_, ?_⟩
    all_goals simp [Unchanged, Composing.joined]
  exact hp.steps fun hordered => hordered

/-- The edit deletes or adds an element. -/
def isChange : Edit α → Bool
  | .common _ => false
  | _ => true

theorem Laid.changes_perm {ordered : Prop} {i j : ℕ} {hs : List (UniHunk α)} {s : List (Edit α)}
    (h : Laid ordered i j hs s) :
    ((hs.flatMap UniHunk.lines).filter isChange).Perm (s.filter isChange) := by
  have hquiet : ∀ gap : List (Edit α), Unchanged gap → gap.filter isChange = [] := by
    intro gap hgap
    apply List.filter_eq_nil_iff.mpr
    intro e he
    obtain ⟨x, rfl⟩ := hgap e he
    simp [isChange]
  induction h with
  | rest hgap =>
    rw [hquiet _ hgap]
    exact .refl _
  | hunk hgap hstands _ ih =>
    rw [List.flatMap_cons, List.filter_append, List.filter_append, List.filter_append,
      hquiet _ hgap, List.nil_append]
    exact (hstands.perm.filter _).append ih

theorem Laid.counts {ordered : Prop} {i j : ℕ} {hs : List (UniHunk α)} {s : List (Edit α)}
    (h : Laid ordered i j hs s) : ∀ k ∈ hs, k.b = (Edit.before k.lines).length ∧
      k.d = (Edit.after k.lines).length := by
  induction h with
  | rest => simp
  | hunk _ hstands _ ih =>
    intro k hk
    rcases List.mem_cons.mp hk with rfl | hk
    · rw [hstands.before, hstands.after]
      exact ⟨hstands.b, hstands.d⟩
    · exact ih k hk

/-- However different two contents are, their hunks hold every deleted and every added line of a
script that turns the one into the other, each as often as the script does. -/
theorem hunks_hold_changes [DecidableEq α] (old new : List α) : ∃ d, compose old new = some d ∧
    Edit.before (d.ses.map edit) = old ∧ Edit.after (d.ses.map edit) = new ∧
    (((composeUnifiedHunks d.swapped d.ses).flatMap UniHunk.lines).filter isChange).Perm
      ((d.ses.map edit).filter isChange) ∧
    ∀ h ∈ composeUnifiedHunks d.swapped d.ses, h.b = (Edit.before h.lines).length ∧
      h.d = (Edit.after h.lines).length := by
  obtain ⟨d, hcompose, hbefore, hafter, -⟩ := compose_returns old new
  have hlaid := composeUnifiedHunks_laid d.swapped d.ses
  exact ⟨d, hcompose, hbefore, hafter, hlaid.changes_perm, hlaid.counts⟩

end Ctguard.Dtl
