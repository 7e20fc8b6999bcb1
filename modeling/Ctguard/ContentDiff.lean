import Ctguard.EditScripts
import Mathlib.Order.Interval.Basic

/-!
# The difference of two contents

`dtl::Diff` on the lines of two contents. `compose` visits the diagonals of their grid in rounds;
every round deletes one line more of the shorter content. What a diagonal reaches is kept in `fp`,
and every visit leaves a record of where it came from. The end of the grid is followed back through
these records, and the script is read off on the way forth. If there are too many records, the
search stops where it is, and a new one goes on with what is left.
-/

namespace Ctguard.Dtl

/-- `edit_t`. -/
inductive EditType where
  | delete
  | common
  | add
  deriving DecidableEq, Repr

/-- `eleminfo`. The lines of both contents are counted from one. -/
structure ElemInfo where
  beforeIdx : ℤ
  afterIdx : ℤ
  type : EditType
  deriving DecidableEq, Repr

abbrev SesElem (α : Type) := α × ElemInfo

/-- A block of numbers. An index outside of it has no number. -/
structure Slots where
  size : ℕ
  val : ℤ → ℤ

namespace Slots

def filled (size : ℕ) : Slots where
  size := size
  val _ := -1

def get (m : Slots) (i : ℤ) : Option ℤ := if 0 ≤ i ∧ i < m.size then some (m.val i) else none

def set (m : Slots) (i v : ℤ) : Option Slots :=
  if 0 ≤ i ∧ i < m.size then some { m with val := Function.update m.val i v } else none

variable {m : Slots} {i v : ℤ}

theorem get_eq (h : 0 ≤ i ∧ i < m.size) : m.get i = some (m.val i) := if_pos h

theorem set_eq (h : 0 ≤ i ∧ i < m.size) :
    m.set i v = some { m with val := Function.update m.val i v } := if_pos h

end Slots

/-- The end of a visit, and the record that it came from. -/
structure P where
  x : ℤ
  y : ℤ
  k : ℤ
  deriving DecidableEq, Repr

/-- `Diff`. The shorter content is `a`, by an exchange if need be. -/
structure Diff (α : Type) where
  a : List α
  b : List α
  swapped : Bool
  fp : Slots
  path : Slots
  pathCordinates : List P := []
  ses : List (SesElem α) := []
  editDistance : ℤ := 0

/-- `MAX_CORDINATES_SIZE`. -/
def maxCordinatesSize : ℕ := 2000000

variable {α : Type}

/-- `init`, and the space for the search. -/
def init (old new : List α) : Diff α :=
  let slots := Slots.filled (old.length + new.length + 3)
  if old.length < new.length then
    { a := old, b := new, swapped := false, fp := slots, path := slots }
  else { a := new, b := old, swapped := true, fp := slots, path := slots }

variable [DecidableEq α]

/-- How many elements are the same at the front of two lists. -/
def commonRun : List α → List α → ℕ
  | x :: xs, y :: ys => if x = y then commonRun xs ys + 1 else 0
  | _, _ => 0

namespace Diff

omit [DecidableEq α] in
def delta (d : Diff α) : ℤ := d.b.length - d.a.length

omit [DecidableEq α] in
def offset (d : Diff α) : ℤ := d.a.length + 1

/-- The loop of `snake`. A negative number is no index: it is converted to a large one. -/
def run (d : Diff α) (x y : ℤ) : ℕ :=
  if 0 ≤ x ∧ 0 ≤ y then commonRun (d.a.drop x.toNat) (d.b.drop y.toNat) else 0

/-- `snake`: the row that a diagonal reaches from the further one of its neighbours. -/
def snake (d : Diff α) (k above below : ℤ) : Option (ℤ × Diff α) := do
  let r ← if below < above then d.path.get (k - 1 + d.offset) else d.path.get (k + 1 + d.offset)
  let y := max above below
  let x := y - k
  let run : ℕ := d.run x y
  let path ← d.path.set (k + d.offset) d.pathCordinates.length
  return (y + run, { d with
    path := path, pathCordinates := d.pathCordinates ++ [⟨x + run, y + run, r⟩] })

/-- A visit of a diagonal. -/
def visit (d : Diff α) (k : ℤ) : Option (Diff α) := do
  let above ← d.fp.get (k - 1 + d.offset)
  let below ← d.fp.get (k + 1 + d.offset)
  let (y, d) ← d.snake k (above + 1) below
  let fp ← d.fp.set (k + d.offset) y
  return { d with fp := fp }

/-- The diagonals in the order of a round: from both sides towards the one on which the grid
ends. -/
def diagonals (delta : ℤ) (p : ℕ) : List ℤ :=
  ((List.range (delta + p).toNat).map fun i : ℕ => -(p : ℤ) + i) ++
    ((List.range p).map fun i : ℕ => delta + p - i) ++ [delta]

def round (d : Diff α) (p : ℕ) : Option (Diff α) := (diagonals d.delta p).foldlM visit d

/-- The rounds of `compose`, from round `p` on. It ends with the last round and what is known
then. -/
def search (limit : ℕ) : ℕ → ℕ → Diff α → Option (ℕ × Diff α)
  | 0, _, _ => none
  | fuel + 1, p, d => do
    let d ← d.round p
    let y ← d.fp.get (d.delta + d.offset)
    if y ≠ d.b.length ∧ d.pathCordinates.length < limit then search limit fuel (p + 1) d
    else return (p, d)

end Diff

/-- The records from one back to the first. -/
def trace (cordinates : List P) : ℕ → ℤ → Option (List P)
  | 0, _ => none
  | fuel + 1, r =>
    if r = -1 then some []
    else if r < 0 then none
    else do
      let p ← cordinates[r.toNat]?
      let ps ← trace cordinates fuel p.k
      return p :: ps

/-- Where `recordSequence` is in the two contents. -/
structure Cursor (α : Type) where
  px : ℕ
  py : ℕ
  ses : List (SesElem α)

namespace Diff

omit [DecidableEq α]

/-- One element of the script, on the way to a record. -/
def recordElem (d : Diff α) (v : P) (c : Cursor α) : Option (Cursor α) :=
  if (c.py : ℤ) - c.px < v.y - v.x then do
    let e ← d.b[c.py]?
    let info : ElemInfo := if d.swapped then ⟨c.py + 1, 0, .delete⟩ else ⟨0, c.py + 1, .add⟩
    return { c with py := c.py + 1, ses := c.ses ++ [(e, info)] }
  else if v.y - v.x < (c.py : ℤ) - c.px then do
    let e ← d.a[c.px]?
    let info : ElemInfo := if d.swapped then ⟨0, c.px + 1, .add⟩ else ⟨c.px + 1, 0, .delete⟩
    return { c with px := c.px + 1, ses := c.ses ++ [(e, info)] }
  else do
    let e ← if d.swapped then d.b[c.py]? else d.a[c.px]?
    let info : ElemInfo :=
      if d.swapped then ⟨c.py + 1, c.px + 1, .common⟩ else ⟨c.px + 1, c.py + 1, .common⟩
    return { px := c.px + 1, py := c.py + 1, ses := c.ses ++ [(e, info)] }

def recordTo (d : Diff α) (v : P) : ℕ → Cursor α → Option (Cursor α)
  | 0, _ => none
  | fuel + 1, c =>
    if c.px < v.x ∨ c.py < v.y then do
      let c ← d.recordElem v c
      recordTo d v fuel c
    else some c

/-- `recordSequence`, up to the last record. There is at least one. -/
def record (d : Diff α) (v : List P) : Option (Cursor α) :=
  if v = [] then none
  else v.foldlM (fun c p => d.recordTo p (d.a.length + d.b.length + 1) c) ⟨0, 0, d.ses⟩

/-- What is left of the contents is compared from scratch. -/
def restart (d : Diff α) (c : Cursor α) : Diff α :=
  let a := d.a.drop c.px
  let b := d.b.drop c.py
  { d with
    a := a, b := b, fp := .filled (a.length + b.length + 3), path := .filled d.path.size
    pathCordinates := [], ses := c.ses }

end Diff

/-- `compose`, with a bound for the number of searches. -/
def composeWithin (limit : ℕ) : ℕ → Diff α → Option (Diff α)
  | 0, _ => none
  | fuel + 1, d => do
    let (p, d) ← d.search limit (d.a.length + 1) 0
    let d := { d with editDistance := d.editDistance + d.delta + 2 * p }
    let r ← d.path.get (d.delta + d.offset)
    let epc ← trace d.pathCordinates (d.pathCordinates.length + 1) r
    let c ← d.record epc.reverse
    if d.a.length ≤ c.px ∧ d.b.length ≤ c.py then return { d with ses := c.ses }
    else composeWithin limit fuel (d.restart c)

def compose (old new : List α) : Option (Diff α) :=
  composeWithin maxCordinatesSize (old.length + new.length + 1) (init old new)

end Ctguard.Dtl
