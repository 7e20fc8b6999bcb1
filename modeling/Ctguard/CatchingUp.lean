import Ctguard.LogfileDelivery

/-!
# What a pass must catch up with

A pass of `logfile_task` should queue every complete line of the present file from the
resume point on: the recorded position if the file is still the recorded one and long
enough, and the start otherwise. Whether anything is read at all is decided by the recorded
size, which is not the size up to which the file was read: after a start it is the size of
that moment, and after a replacement that of the old file.
-/

namespace Ctguard.LogfileTask

section Lines

/-- Lines with the offsets at which they start, from an offset on. -/
def linesAt : ℕ → List (List Char) → List (ℕ × List Char)
  | _, [] => []
  | offset, l :: ls => (offset, l) :: linesAt (offset + l.length + 1) ls

/-- The complete non-empty lines that start at an offset or behind it, for a file that
starts itself at the offset `start`. -/
def linesBehind (start offset : ℕ) (data : List Char) : List (List Char) :=
  ((linesAt start (terminatedItems '\n' data)).filter fun l => offset ≤ l.1 ∧ l.2 ≠ []).map
    Prod.snd

/-- The complete non-empty lines of a file that start at an offset or behind it. -/
def linesFrom (offset : ℕ) (data : List Char) : List (List Char) := linesBehind 0 offset data

theorem linesBehind_of_notMem {data : List Char} (h : '\n' ∉ data) (start offset : ℕ) :
    linesBehind start offset data = [] := by
  simp [linesBehind, terminatedItems_of_notMem h, linesAt]

theorem linesBehind_item {item : List Char} (h : '\n' ∉ item) (start offset : ℕ)
    (more : List Char) : linesBehind start offset (item ++ '\n' :: more) =
      (if offset ≤ start ∧ item ≠ [] then [item] else []) ++
        linesBehind (start + item.length + 1) offset more := by
  rw [linesBehind, terminatedItems_item h, linesAt, List.filter_cons]
  by_cases hitem : offset ≤ start ∧ item ≠ []
  · simp [hitem, linesBehind]
  · simp [hitem, linesBehind]

theorem closedLines_item {item : List Char} (h : '\n' ∉ item) (more : List Char) :
    closedLines (item ++ '\n' :: more) =
      (if item ≠ [] then [item] else []) ++ closedLines more := by
  rw [closedLines, terminatedItems_item h, List.filter_cons]
  by_cases hitem : item = []
  · simp [hitem, closedLines]
  · simp [hitem, closedLines]

/-- Lines are found behind an offset, be it in the middle of a line. -/
theorem linesBehind_sublist (start offset : ℕ) (data : List Char) :
    (linesBehind start offset data).Sublist (closedLines (data.drop (offset - start))) := by
  induction data using item_induction '\n' generalizing start with
  | item item more hitem ih =>
    have hmore := ih (start + item.length + 1)
    rw [linesBehind_item hitem]
    by_cases hbefore : offset ≤ start
    · have hzero : offset - start = 0 := by omega
      have hzero' : offset - (start + item.length + 1) = 0 := by omega
      rw [hzero'] at hmore
      rw [hzero, List.drop_zero, closedLines_item hitem]
      simp only [hbefore, true_and]
      exact (List.Sublist.refl _).append hmore
    · rw [if_neg (fun h => hbefore h.1), List.nil_append]
      by_cases hwithin : offset - start ≤ item.length
      · have hzero : offset - (start + item.length + 1) = 0 := by omega
        have hcut : '\n' ∉ item.drop (offset - start) := fun h => hitem (List.mem_of_mem_drop h)
        rw [hzero] at hmore
        rw [List.drop_append_of_le_length hwithin, closedLines_item hcut]
        exact hmore.trans (List.sublist_append_right _ _)
      · have hbehind : offset - start =
            (item.length + 1) + (offset - (start + item.length + 1)) := by omega
        have hskip : (item ++ '\n' :: more).drop (item.length + 1) = more := by simp
        rw [hbehind, ← List.drop_drop, hskip]
        exact hmore
  | last data hlast =>
    rw [linesBehind_of_notMem hlast]
    exact List.nil_sublist _

theorem linesFrom_sublist_drop (offset : ℕ) (data : List Char) :
    (linesFrom offset data).Sublist (closedLines (data.drop offset)) :=
  linesBehind_sublist 0 offset data

theorem linesBehind_sublist_closedLines (start offset : ℕ) (data : List Char) :
    (linesBehind start offset data).Sublist (closedLines data) := by
  induction data using item_induction '\n' generalizing start with
  | item item more hitem ih =>
    rw [linesBehind_item hitem, closedLines_item hitem]
    refine List.Sublist.append ?_ (ih (start + item.length + 1))
    by_cases h : offset ≤ start ∧ item ≠ []
    · rw [if_pos h, if_pos h.2]
    · rw [if_neg h]
      exact List.nil_sublist _
  | last data hlast =>
    rw [linesBehind_of_notMem hlast]
    exact List.nil_sublist _

/-- Reading from the start, or from the offset itself, yields all these lines. -/
theorem linesFrom_sublist_linesRead {start offset : ℕ} (h : start = 0 ∨ start = offset)
    (data : List Char) : (linesFrom offset data).Sublist (linesRead (data.drop start)) := by
  have hclosed : (linesFrom offset data).Sublist (closedLines (data.drop start)) := by
    rcases h with rfl | rfl
    · exact linesBehind_sublist_closedLines 0 offset data
    · exact linesFrom_sublist_drop start data
  exact hclosed.trans (List.sublist_append_left _ _)

end Lines

section Visits

variable (unitTest : Bool)

/-- A visit in which open, stat and seek succeed: the file has this inode, its size was `size`
at the `stat`, and its content is `data` when it is read. -/
structure Visit.Succeeds (v : Visit) (inode : UInt64) (size : ℤ) (data : List Char)
    (ls : Logfile) : Prop where
  opened : ls.fd = -1 ∨ ls.down = true → v.opened ≠ -1
  stat : v.stat = some (inode, size)
  reopened : inode ≠ ls.inode → v.reopened ≠ -1
  stream : v.stream = some data
  seek : inode = ls.inode → ls.size ≤ size → 0 ≤ ls.position

/-- The recorded position if the file is the recorded one and at least that long. -/
def resumePoint (inode : UInt64) (data : List Char) (ls : Logfile) : ℕ :=
  if inode = ls.inode ∧ ls.position ≤ data.length then ls.position.toNat else 0

/-- The messages for lines of its file that a visit puts into the queue. -/
def visitLines (v : Visit) (ls : Logfile) : List String :=
  lineMessages ls.path (queued (visitFile unitTest v ls).2)

variable {unitTest} {v : Visit} {inode : UInt64} {size : ℤ} {data : List Char} {ls : Logfile}

@[simp] theorem lineMessages_control (path : String) (now : ℤ) (ls : Logfile) (message : String)
    (es : List Effect) :
    lineMessages path (queued (control unitTest now ls message :: es)) =
      lineMessages path (queued es) := by
  simp [lineMessages, control, log2Se]

@[simp] theorem lineMessages_opened (path : String) (fd : ℤ) (es : List Effect) :
    lineMessages path (queued (.opened fd :: es)) = lineMessages path (queued es) := rfl

@[simp] theorem lineMessages_closed (path : String) (fd : ℤ) (es : List Effect) :
    lineMessages path (queued (.closed fd :: es)) = lineMessages path (queued es) := rfl

/-- What the size check finds in the entry when open and stat have succeeded. -/
structure AtSizeCheck (inode : UInt64) (ls ls' : Logfile) : Prop where
  config : ls'.config = ls.config
  size : ls'.size = ls.size
  position : ls'.position = if inode = ls.inode then ls.position else 0

theorem checkInode_lines (h : v.Succeeds inode size data ls) {ls₁ : Logfile}
    (hconfig : ls₁.config = ls.config) (hinode : ls₁.inode = ls.inode)
    (hsize : ls₁.size = ls.size) (hposition : ls₁.position = ls.position) (path : String) :
    ∃ ls', AtSizeCheck inode ls ls' ∧
      lineMessages path (queued (checkStat unitTest v ls₁).2) =
        lineMessages path (queued (checkSize unitTest v size ls').2) := by
  rw [checkStat, h.stat]
  simp only [checkInode, hinode]
  by_cases hsame : inode = ls.inode
  · refine ⟨ls₁, ⟨hconfig, hsize, by rw [if_pos hsame, hposition]⟩, ?_⟩
    rw [if_neg (not_not_intro hsame)]
  · refine ⟨{ ls₁ with inode := inode, position := 0, fd := v.reopened },
      ⟨hconfig, hsize, by rw [if_neg hsame]⟩, ?_⟩
    rw [if_pos hsame, if_neg (h.reopened hsame)]
    simp only [List.cons_append, List.nil_append, lineMessages_control, lineMessages_closed,
      lineMessages_opened]

theorem bringUp_lines (h : v.Succeeds inode size data ls) (b : Bool) (path : String) :
    ∃ ls', AtSizeCheck inode ls ls' ∧
      lineMessages path (queued (bringUp unitTest v { ls with timeoutTriggered := b }).2) =
        lineMessages path (queued (checkSize unitTest v size ls').2) := by
  rw [bringUp]
  by_cases hdown : ls.fd = -1 ∨ ls.down = true
  · rw [if_pos hdown, if_neg (h.opened hdown)]
    simp only [lineMessages_opened, lineMessages_control]
    refine checkInode_lines h ?_ ?_ ?_ ?_ path <;> rfl
  · rw [if_neg hdown]
    refine checkInode_lines h ?_ ?_ ?_ ?_ path <;> rfl

/-- When open and stat succeed, only the size check queues lines. -/
theorem visitLines_eq (h : v.Succeeds inode size data ls) :
    ∃ ls', AtSizeCheck inode ls ls' ∧
      visitLines unitTest v ls =
        lineMessages ls.path (queued (checkSize unitTest v size ls').2) := by
  rw [visitLines, visitFile]
  split
  · simp only [lineMessages_control]
    exact bringUp_lines h true ls.path
  · exact bringUp_lines h ls.timeoutTriggered ls.path

theorem readStream_lines (hstream : v.stream = some data) (hposition : 0 ≤ ls.position) :
    lineMessages ls.path (queued (readStream unitTest v ls).2) =
      (linesRead (data.drop ls.position.toNat)).map String.ofList := by
  obtain ⟨p, hp⟩ := Int.eq_ofNat_of_zero_le hposition
  have hseek : ({ data := data } : InputStream Char).seekg ls.position =
      { data := data, pos := p } := by
    rw [hp]
    exact InputStream.seekg_natCast p data
  have hgood : ({ data := data, pos := p } : InputStream Char).good = true := rfl
  rw [readStream, hstream]
  simp only [hseek]
  rw [if_neg (by simp), lineMessages_readLoop unitTest v.now hgood, hp]
  rfl

/-- The size check reads nothing, or from the start, or from the position. -/
theorem visitLines_cases (h : v.Succeeds inode size data ls) :
    visitLines unitTest v ls =
      if size = ls.size then []
      else if inode = ls.inode ∧ ls.size ≤ size then
        (linesRead (data.drop ls.position.toNat)).map String.ofList
      else (linesRead data).map String.ofList := by
  obtain ⟨ls', hcheck, hlines⟩ : ∃ ls', AtSizeCheck inode ls ls' ∧ visitLines unitTest v ls =
      lineMessages ls.path (queued (checkSize unitTest v size ls').2) := visitLines_eq h
  have hpath : ls.path = ls'.path := by rw [Logfile.path, Logfile.path, hcheck.config]
  rw [hlines, checkSize, hcheck.size]
  by_cases hsame : size = ls.size
  · rw [if_pos hsame, if_pos hsame]
    rfl
  · rw [if_neg hsame, if_neg hsame]
    by_cases hshrunk : size < ls.size
    · have hnot : ¬ (inode = ls.inode ∧ ls.size ≤ size) := by omega
      rw [if_pos hshrunk, if_neg hnot, lineMessages_control, hpath]
      have hstart : (0 : ℤ) ≤ Logfile.position { ls' with position := 0, size := size } :=
        Int.le_refl 0
      exact readStream_lines h.stream hstart
    · have hgrown : ls.size ≤ size := by omega
      have hread : ∀ p : ℤ, ls'.position = p → 0 ≤ p →
          lineMessages ls.path (queued (readStream unitTest v { ls' with size := size }).2) =
            (linesRead (data.drop p.toNat)).map String.ofList := by
        rintro p rfl hp
        rw [hpath]
        have hposition : 0 ≤ Logfile.position { ls' with size := size } := hp
        exact readStream_lines h.stream hposition
      rw [if_neg hshrunk]
      by_cases hinode : inode = ls.inode
      · rw [if_pos ⟨hinode, hgrown⟩]
        exact hread _ (hcheck.position.trans (if_pos hinode)) (h.seek hinode hgrown)
      · rw [if_neg (fun h => hinode h.1)]
        exact hread 0 (hcheck.position.trans (if_neg hinode)) (Int.le_refl 0)

/-- All complete non-empty lines of the file from the resume point on have been queued. -/
def CatchesUp (unitTest : Bool) (v : Visit) (inode : UInt64) (data : List Char) (ls : Logfile) :
    Prop :=
  ((linesFrom (resumePoint inode data ls) data).map String.ofList).Sublist
    (visitLines unitTest v ls)

/-- A visit of any entry reads what it must if there is nothing, or if the size differs from
the recorded one and does not exceed it while the position lies behind the end of the file. -/
theorem visit_catchesUp_iff (h : v.Succeeds inode size data ls) :
    CatchesUp unitTest v inode data ls ↔
      linesFrom (resumePoint inode data ls) data = [] ∨
        (size ≠ ls.size ∧
          ¬ (inode = ls.inode ∧ ls.size < size ∧ (data.length : ℤ) < ls.position)) := by
  rw [CatchesUp, visitLines_cases h]
  by_cases hsame : size = ls.size
  · simp [hsame]
  · rw [if_neg hsame]
    by_cases hresume : inode = ls.inode ∧ ls.size ≤ size
    · rw [if_pos hresume]
      by_cases hbehind : (data.length : ℤ) < ls.position
      · have hnothing : data.drop ls.position.toNat = [] := by
          apply List.drop_of_length_le
          omega
        have hlt : ls.size < size := by omega
        simp [hnothing, hresume, hlt, hbehind, linesRead_of_notMem]
      · have hpoint : resumePoint inode data ls = ls.position.toNat := by
          rw [resumePoint, if_pos ⟨hresume.1, by omega⟩]
        have hread := linesFrom_sublist_linesRead (.inr hpoint.symm) data
        exact iff_of_true (hread.map String.ofList) (.inr ⟨hsame, fun hcut => hbehind hcut.2.2⟩)
    · have hread : (linesFrom (resumePoint inode data ls) data).Sublist (linesRead data) :=
        linesFrom_sublist_linesRead (.inl rfl) data
      have hnot : ¬ (inode = ls.inode ∧ ls.size < size ∧ (data.length : ℤ) < ls.position) := by
        rintro ⟨hinode, hlt, -⟩
        exact hresume ⟨hinode, Int.le_of_lt hlt⟩
      rw [if_neg hresume]
      exact iff_of_true (hread.map String.ofList) (.inr ⟨hsame, hnot⟩)

end Visits

section Runs

variable (unitTest : Bool)

/-- An entry after some visits. -/
def entryAfter (ls : Logfile) (visits : List Visit) : Logfile :=
  visits.foldl (fun ls v => (visitFile unitTest v ls).1) ls

/-- Every pass catches up. After any start, with or without saved state, and any visits, a
visit in which open, stat and seek succeed queues all complete non-empty lines of the file
from the resume point on exactly if there is none, or if the size of the file is not the
recorded one and the file has not grown to end before the recorded position. -/
theorem pass_catchesUp_iff (saved : List (String × UInt64 × ℤ)) (now opened : ℤ)
    (fstat : Option (UInt64 × ℤ)) (lc : LogfileConfig) (visits : List Visit) {v : Visit}
    {inode : UInt64} {size : ℤ} {data : List Char} {ls : Logfile}
    (hls : ls = entryAfter unitTest (startFile unitTest saved now opened fstat lc).1 visits)
    (h : v.Succeeds inode size data ls) :
    CatchesUp unitTest v inode data ls ↔
      linesFrom (resumePoint inode data ls) data = [] ∨
        (size ≠ ls.size ∧
          ¬ (inode = ls.inode ∧ ls.size < size ∧ (data.length : ℤ) < ls.position)) := by
  subst hls
  exact visit_catchesUp_iff h

/-- A visit that finds the inode and this content of a file. -/
def plainVisit (inode : UInt64) (content : List Char) : Visit :=
  growingVisit inode content 10 3 3

/-- The entry of an empty file without saved state. -/
def emptyStart : Logfile := (startFile false [] 0 3 (some (7, 0)) { path := "app.log" }).1

theorem pass_catchesUp_written :
    CatchesUp false (plainVisit 7 ['a', '\n']) 7 ['a', '\n'] emptyStart ↔
      linesFrom (resumePoint 7 ['a', '\n'] emptyStart) ['a', '\n'] = [] ∨
        ((2 : ℤ) ≠ emptyStart.size ∧ ¬ ((7 : UInt64) = emptyStart.inode ∧ emptyStart.size < 2 ∧
          ((['a', '\n'] : List Char).length : ℤ) < emptyStart.position)) := by
  have hsucceeds : (plainVisit 7 ['a', '\n']).Succeeds 7 2 ['a', '\n'] emptyStart :=
    ⟨by decide, rfl, by decide, rfl, by decide⟩
  exact pass_catchesUp_iff false [] 0 3 (some (7, 0)) { path := "app.log" } [] rfl hsucceeds

/-- The entry of a file that has grown by a line while the scanner was down: its saved
position is behind the first line. -/
def grownStart : Logfile :=
  (startFile false [("app.log", 7, 2)] 0 3 (some (7, 4)) { path := "app.log" }).1

def grownFile : List Char := ['a', '\n', 'b', '\n']

/-- A file of the same size that has taken its place. -/
def otherFile : List Char := ['c', '\n', 'd', '\n']

/-- The first pass does not read the line written while the scanner was down, since the size
has not changed since the start. Nor does a pass read a new file of the size of the old one. -/
theorem not_catchesUp_grown :
    (plainVisit 7 grownFile).Succeeds 7 4 grownFile grownStart ∧
      linesFrom (resumePoint 7 grownFile grownStart) grownFile = [['b']] ∧
      ¬ CatchesUp false (plainVisit 7 grownFile) 7 grownFile grownStart ∧
      (plainVisit 8 otherFile).Succeeds 8 4 otherFile grownStart ∧
      linesFrom (resumePoint 8 otherFile grownStart) otherFile = [['c'], ['d']] ∧
      ¬ CatchesUp false (plainVisit 8 otherFile) 8 otherFile grownStart := by
  have hlines : linesFrom (resumePoint 7 grownFile grownStart) grownFile = [['b']] := by
    decide +kernel
  have hnone : visitLines false (plainVisit 7 grownFile) grownStart = [] := by decide +kernel
  have hlines' : linesFrom (resumePoint 8 otherFile grownStart) otherFile = [['c'], ['d']] := by
    decide +kernel
  have hnone' : visitLines false (plainVisit 8 otherFile) grownStart = [] := by decide +kernel
  refine ⟨⟨by decide, rfl, by decide, rfl, by decide⟩, hlines, ?_,
    ⟨by decide, rfl, by decide, rfl, by decide⟩, hlines', ?_⟩
  · rw [CatchesUp, hlines, hnone]
    simp
  · rw [CatchesUp, hlines', hnone']
    simp

end Runs

end Ctguard.LogfileTask
