import Ctguard.LogfileTask
import Ctguard.StepRuns

/-!
# Runs of the log file scanner

A run of `logfile_task` sets up the entries one by one and then visits them in turn, pass after
pass. The time is asked for more than once in a visit: `clock n` is the time at the `n`-th moment
that matters, which is a check for silence, the note that a line was read, or a message. What is
done is kept in one trace for all files. If the clock stands still during a visit, the visit is
that of `LogfileTask`.
-/

namespace Ctguard.LogfileTrace

open LogfileTask

/-- The answers of the system during one visit. -/
structure Answers where
  opened : ℤ
  stat : Option (UInt64 × ℤ)
  reopened : ℤ
  stream : Option (List Char)

/-- What is done for a file. A message is kept with the time when it is put into the queue and
the time that its entry gives as the last update. -/
inductive Deed where
  | emplace (time updated : ℤ) (se : SourceEvent)
  | opened (fd : ℤ)
  | closed (fd : ℤ)
  deriving DecidableEq, Repr

/-- The entry at work, the number of the next moment, and all that was done before. -/
structure Progress where
  entry : Logfile
  moment : ℕ
  trace : List (ℕ × Deed)

/-- A file that can be read: its descriptor is valid and it is not down. -/
def Usable (ls : Logfile) : Prop := ls.fd ≠ -1 ∧ ls.down = false

instance (ls : Logfile) : Decidable (Usable ls) := inferInstanceAs (Decidable (_ ∧ _))

section Task

variable (unitTest : Bool) (clock : ℕ → ℤ) (file : ℕ)

namespace Progress

def change (f : Logfile → Logfile) (p : Progress) : Progress := { p with entry := f p.entry }

def note (d : Deed) (p : Progress) : Progress := { p with trace := p.trace ++ [(file, d)] }

def emplace (control : Bool) (message : String) (p : Progress) : Progress where
  entry := p.entry
  moment := p.moment + 1
  trace := p.trace ++ [(file, .emplace (clock p.moment) p.entry.lastUpdated
    (log2Se unitTest (clock p.moment) p.entry.path control message))]

def updateTime (p : Progress) : Progress where
  entry := { p.entry with lastUpdated := clock p.moment }
  moment := p.moment + 1
  trace := p.trace

end Progress

/-- A line that is not blank. -/
def gotLine (position : ℤ) (line : List Char) (p : Progress) : Progress :=
  (((p.change fun ls => { ls with position := position }).updateTime clock).change
    fun ls => { ls with timeoutTriggered := false }).emplace unitTest clock file false
      (String.ofList line)

def readLoop (st : InputStream Char) (line : List Char) (p : Progress) : Progress :=
  if _h : st.failbit = true then p
  else
    let got := st.getline '\n' line
    if got.1 = [] then readLoop got.2 got.1 p
    else
      let told := got.2.tellg
      readLoop told.2 got.1 (gotLine unitTest clock file told.1 got.1 p)
termination_by st.fuel
decreasing_by
  · exact st.getline_fuel_lt '\n' line (by simpa using _h)
  · exact (got.2.tellg_fuel_le).trans_lt (st.getline_fuel_lt '\n' line (by simpa using _h))

def readStream (a : Answers) (p : Progress) : Progress :=
  match a.stream with
  | none => p
  | some data =>
    let st := ({ data := data } : InputStream Char).seekg p.entry.position
    if st.failbit then p else readLoop unitTest clock file st [] p

def checkSize (a : Answers) (size : ℤ) (p : Progress) : Progress :=
  if size = p.entry.size then p
  else if size < p.entry.size then
    readStream unitTest clock file a ((p.emplace unitTest clock file true "!File truncated").change
      fun ls => { ls with position := 0, size := size })
  else readStream unitTest clock file a (p.change fun ls => { ls with size := size })

/-- The old file is closed, and the new one takes its place. -/
def replace (inode : UInt64) (reopened : ℤ) (p : Progress) : Progress :=
  ((p.emplace unitTest clock file true "!File got replaced").note file (.closed p.entry.fd)).change
    fun ls => { ls with inode := inode, position := 0, fd := reopened }

def checkInode (a : Answers) (inode : UInt64) (size : ℤ) (p : Progress) : Progress :=
  if inode ≠ p.entry.inode then
    let p := replace unitTest clock file inode a.reopened p
    if a.reopened = -1 then p.emplace unitTest clock file true "!File went down"
    else checkSize unitTest clock file a size (p.note file (.opened a.reopened))
  else checkSize unitTest clock file a size p

def goDown (p : Progress) : Progress :=
  (p.emplace unitTest clock file true "!File went down").change fun ls => { ls with down := true }

def checkStat (a : Answers) (p : Progress) : Progress :=
  match a.stat with
  | none => goDown unitTest clock file p
  | some (inode, size) => checkInode unitTest clock file a inode size p

def comeAlive (fd : ℤ) (p : Progress) : Progress :=
  (((p.change fun ls => { ls with fd := fd }).note file (.opened fd)).emplace unitTest clock file
    true "!File coming alive").change fun ls => { ls with down := false, timeoutTriggered := false }

def stillDown (p : Progress) : Progress := p.change fun ls => { ls with fd := -1 }

def bringUp (a : Answers) (p : Progress) : Progress :=
  if p.entry.fd = -1 ∨ p.entry.down then
    if a.opened = -1 then stillDown p
    else checkStat unitTest clock file a (comeAlive unitTest clock file a.opened p)
  else checkStat unitTest clock file a p

def alertTimeout (p : Progress) : Progress :=
  (p.change fun ls => { ls with timeoutTriggered := true }).emplace unitTest clock file true
    "!Timeout alert"

/-- The time is asked for only where a silence is to be reported. -/
def checkTimeout (p : Progress) : Progress :=
  if p.entry.config.timeoutAlert ≠ 0 ∧ p.entry.timeoutTriggered = false then
    let checked := { p with moment := p.moment + 1 }
    if p.entry.lastUpdated + p.entry.config.timeoutAlert.toNat ≤ clock p.moment then
      alertTimeout unitTest clock file checked
    else checked
  else p

/-- The body of the loop over `log_states`. -/
def visitFile (a : Answers) (p : Progress) : Progress :=
  bringUp unitTest clock file a (checkTimeout unitTest clock file p)

/-- One entry of the saved state is compared with an opened file. -/
def findState (inode : UInt64) (p : Progress) (s : String × UInt64 × ℤ) : Progress :=
  if inode ≠ s.2.1 then
    (p.emplace unitTest clock file true "!File got replaced").change
      fun ls => { ls with position := 0 }
  else p.change fun ls => { ls with position := s.2.2 }

/-- The set-up of an entry before the loop starts. -/
def startFile (saved : List (String × UInt64 × ℤ)) (opened : ℤ) (fstat : Option (UInt64 × ℤ))
    (p : Progress) : Progress :=
  if opened = -1 then p.change fun ls => { ls with down := true }
  else
    let p := (p.change fun ls => { ls with fd := opened }).note file (.opened opened)
    match fstat with
    | none => p.change fun ls => { ls with down := true }
    | some (inode, size) =>
      let found := saved.filter (·.1 = p.entry.path)
      let p := (found.foldl (findState unitTest clock file inode) p).change
        fun ls => { ls with inode := inode, size := size }
      (if found = [] then p.change fun ls => { ls with position := size } else p).updateTime clock

end Task

/-- The entries, the number of visits so far, the number of the next moment, and the trace. -/
structure Scan where
  entries : List Logfile := []
  visits : ℕ := 0
  moment : ℕ := 0
  trace : List (ℕ × Deed) := []

inductive Action where
  | start (lc : LogfileConfig) (opened : ℤ) (fstat : Option (UInt64 × ℤ))
  | visit (a : Answers)

section Runs

variable (unitTest : Bool) (clock : ℕ → ℤ) (saved : List (String × UInt64 × ℤ))

/-- The number of the entry that is visited next. Where it is `0`, a pass begins. -/
def Scan.next (s : Scan) : ℕ := s.visits % s.entries.length

/-- All entries are set up before the first visit. -/
def step (s : Scan) : Action → Option Scan
  | .start lc opened fstat =>
    if s.visits = 0 then
      let p := startFile unitTest clock s.entries.length saved opened fstat
        { entry := { config := lc }, moment := s.moment, trace := s.trace }
      some { s with entries := s.entries ++ [p.entry], moment := p.moment, trace := p.trace }
    else none
  | .visit a =>
    match s.entries[s.next]? with
    | none => none
    | some ls =>
      let p := visitFile unitTest clock s.next a
        { entry := ls, moment := s.moment, trace := s.trace }
      some { entries := s.entries.set s.next p.entry, visits := s.visits + 1,
             moment := p.moment, trace := p.trace }

end Runs

section Stopped

variable {unitTest : Bool} {now : ℤ} {file : ℕ}

def Deed.effect : Deed → Effect
  | .emplace _ _ se => .emplace se
  | .opened fd => .opened fd
  | .closed fd => .closed fd

def effects (trace : List (ℕ × Deed)) : List (ℕ × Effect) := trace.map (Prod.map id Deed.effect)

@[simp] theorem effects_append (xs ys : List (ℕ × Deed)) :
    effects (xs ++ ys) = effects xs ++ effects ys := List.map_append

@[simp] theorem effects_nil : effects [] = [] := rfl

@[simp] theorem effects_cons (d : Deed) (trace : List (ℕ × Deed)) :
    effects ((file, d) :: trace) = (file, d.effect) :: effects trace := rfl

def Answers.visit (a : Answers) (now : ℤ) : Visit where
  now := now
  opened := a.opened
  stat := a.stat
  reopened := a.reopened
  stream := a.stream

/-- The progress from `p` to `q` is what a function of `LogfileTask` returns. -/
def Agrees (file : ℕ) (p q : Progress) (r : Logfile × List Effect) : Prop :=
  q.entry = r.1 ∧ effects q.trace = effects p.trace ++ r.2.map (file, ·)

theorem agrees_self (p : Progress) : Agrees file p p (p.entry, []) := ⟨rfl, by simp⟩

/-- Effects before those of the rest come first. -/
theorem Agrees.behind {p q t : Progress} {r : Logfile × List Effect} {es : List Effect}
    (h : Agrees file q t r) (htrace : effects q.trace = effects p.trace ++ es.map (file, ·)) :
    Agrees file p t (r.1, es ++ r.2) :=
  ⟨h.1, by rw [h.2, htrace, List.map_append, List.append_assoc]⟩

theorem readLoop_agrees (st : InputStream Char) (line : List Char) (p : Progress) :
    Agrees file p (readLoop unitTest (fun _ => now) file st line p)
      (LogfileTask.readLoop unitTest now st line p.entry) := by
  induction st, line, p using readLoop.induct unitTest (fun _ => now) file with
  | case1 st line p h =>
    rw [readLoop, LogfileTask.readLoop, dif_pos h, dif_pos h]
    exact agrees_self p
  | case2 st line p h got hempty ih =>
    rw [readLoop, LogfileTask.readLoop, dif_neg h, dif_neg h]
    simp only
    rw [if_pos hempty, if_pos hempty]
    exact ih
  | case3 st line p h got hempty told ih =>
    rw [readLoop, LogfileTask.readLoop, dif_neg h, dif_neg h]
    simp only
    rw [if_neg hempty, if_neg hempty]
    refine @Agrees.behind _ p _ _ _ [_] ih ?_
    simp [gotLine, Progress.emplace, Progress.change, Progress.updateTime, Deed.effect]
    rfl

theorem readStream_agrees (a : Answers) (p : Progress) :
    Agrees file p (readStream unitTest (fun _ => now) file a p)
      (LogfileTask.readStream unitTest (a.visit now) p.entry) := by
  rw [readStream, LogfileTask.readStream]
  cases hstream : a.stream with
  | none =>
    simp only [Answers.visit, hstream]
    exact agrees_self p
  | some data =>
    simp only [Answers.visit, hstream]
    split
    · exact agrees_self p
    · exact readLoop_agrees _ _ p

theorem checkSize_agrees (a : Answers) (size : ℤ) (p : Progress) :
    Agrees file p (checkSize unitTest (fun _ => now) file a size p)
      (LogfileTask.checkSize unitTest (a.visit now) size p.entry) := by
  rw [checkSize, LogfileTask.checkSize]
  split
  · exact agrees_self p
  · split
    · refine @Agrees.behind _ p _ _ _ [_] (readStream_agrees a _) ?_
      simp [Progress.emplace, Progress.change, Deed.effect, LogfileTask.control, Answers.visit]
    · exact @Agrees.behind _ p _ _ _ [] (readStream_agrees a _) (by simp [Progress.change])

theorem checkInode_agrees (a : Answers) (inode : UInt64) (size : ℤ) (p : Progress) :
    Agrees file p (checkInode unitTest (fun _ => now) file a inode size p)
      (LogfileTask.checkInode unitTest (a.visit now) inode size p.entry) := by
  rw [checkInode, LogfileTask.checkInode]
  split
  · have hreopened : (a.visit now).reopened = a.reopened := rfl
    rw [hreopened]
    split
    · refine ⟨rfl, ?_⟩
      simp [Progress.emplace, replace, Progress.change, Progress.note, Deed.effect, LogfileTask.control,
        Answers.visit]
      rfl
    · refine @Agrees.behind _ p _ _ _ [_, _, _] (checkSize_agrees a size _) ?_
      simp [Progress.emplace, replace, Progress.change, Progress.note, Deed.effect, LogfileTask.control,
        Answers.visit]
  · exact checkSize_agrees a size p

theorem checkStat_agrees (a : Answers) (p : Progress) :
    Agrees file p (checkStat unitTest (fun _ => now) file a p)
      (LogfileTask.checkStat unitTest (a.visit now) p.entry) := by
  rw [checkStat, LogfileTask.checkStat]
  cases hstat : a.stat with
  | none =>
    simp only [Answers.visit, hstat]
    refine ⟨rfl, ?_⟩
    simp [goDown, Progress.emplace, Progress.change, Deed.effect, LogfileTask.control]
  | some s =>
    have hvisit : (a.visit now).stat = some s := hstat
    rw [hvisit]
    exact checkInode_agrees a s.1 s.2 p

theorem bringUp_agrees (a : Answers) (p : Progress) :
    Agrees file p (bringUp unitTest (fun _ => now) file a p)
      (LogfileTask.bringUp unitTest (a.visit now) p.entry) := by
  rw [bringUp, LogfileTask.bringUp]
  have hopened : (a.visit now).opened = a.opened := rfl
  rw [hopened]
  split
  · split
    · exact ⟨rfl, by simp [stillDown, Progress.change]⟩
    · refine @Agrees.behind _ p _ _ _ [_, _] (checkStat_agrees a _) ?_
      simp [comeAlive, Progress.emplace, Progress.change, Progress.note, Deed.effect, LogfileTask.control,
        Answers.visit]
      rfl
  · exact checkStat_agrees a p

/-- If the clock stands still, a visit is the one that is given the time. -/
theorem visitFile_agrees (a : Answers) (p : Progress) :
    Agrees file p (visitFile unitTest (fun _ => now) file a p)
      (LogfileTask.visitFile unitTest (a.visit now) p.entry) := by
  rw [visitFile, LogfileTask.visitFile, checkTimeout]
  have hnow : (a.visit now).now = now := rfl
  rw [hnow]
  by_cases hasked : p.entry.config.timeoutAlert ≠ 0 ∧ p.entry.timeoutTriggered = false
  · rw [if_pos hasked]
    by_cases hdue : p.entry.lastUpdated + p.entry.config.timeoutAlert.toNat ≤ now
    · rw [if_pos hdue, if_pos ⟨hasked.1, hasked.2, hdue⟩]
      refine @Agrees.behind _ p _ _ _ [_] (bringUp_agrees a _) ?_
      simp [alertTimeout, Progress.emplace, Progress.change, Deed.effect, LogfileTask.control]
      rfl
    · rw [if_neg hdue, if_neg fun h => hdue h.2.2]
      exact bringUp_agrees a _
  · rw [if_neg hasked, if_neg fun h => hasked ⟨h.1, h.2.1⟩]
    exact bringUp_agrees a p

end Stopped

end Ctguard.LogfileTrace
