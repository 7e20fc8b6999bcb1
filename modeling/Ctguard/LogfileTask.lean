import Ctguard.InputStream
import Ctguard.Messages

/-!
# The loop of the log file scanner

One pass of `logfile_task` visits every configured file. A visit reads the clock and
asks the system to open, stat and stream the file; the answers are the fields of
`Visit`. What a visit does besides updating its entry is a list of effects in order:
messages put into the queue and descriptors opened and closed.
-/

namespace Ctguard.LogfileTask

structure LogfileConfig where
  path : String
  timeoutAlert : UInt32 := 0
  deriving DecidableEq, Repr

/-- The entry of one monitored file. -/
structure Logfile where
  config : LogfileConfig
  fd : ℤ := -1
  position : ℤ := 0
  inode : UInt64 := -1
  size : ℤ := -1
  down : Bool := false
  lastUpdated : ℤ := 0
  timeoutTriggered : Bool := false
  deriving DecidableEq, Repr

def Logfile.path (ls : Logfile) : String := ls.config.path

/-- The answers of the system during one visit. A descriptor of `-1`, a missing
`stat` and a missing `stream` are failures. -/
structure Visit where
  now : ℤ
  opened : ℤ
  stat : Option (UInt64 × ℤ)
  reopened : ℤ
  stream : Option (List Char)

inductive Effect where
  | emplace (se : SourceEvent)
  | opened (fd : ℤ)
  | closed (fd : ℤ)
  deriving DecidableEq, Repr

/-- The messages that a list of effects puts into the queue. -/
def queued (es : List Effect) : List SourceEvent :=
  es.filterMap fun
    | .emplace se => some se
    | _ => none

@[simp] theorem queued_append (es fs : List Effect) :
    queued (es ++ fs) = queued es ++ queued fs := List.filterMap_append

@[simp] theorem queued_emplace (se : SourceEvent) (es : List Effect) :
    queued (.emplace se :: es) = se :: queued es := rfl

@[simp] theorem queued_nil : queued [] = [] := rfl

section Task

variable (unitTest : Bool)

def log2Se (now : ℤ) (source : String) (control : Bool) (message : String) : SourceEvent where
  controlMessage := control
  message := message
  sourceDomain := source
  sourceProgram := "ctguard-logscan"
  timeScanned := if unitTest then 0 else now

def control (now : ℤ) (ls : Logfile) (message : String) : Effect :=
  .emplace (log2Se unitTest now ls.path true message)

/-- The loop over `getline`. Blank lines are neither queued nor do they move the
position, which is read back from the stream only after a line was extracted. -/
def readLoop (now : ℤ) (st : InputStream Char) (line : List Char) (ls : Logfile) :
    Logfile × List Effect :=
  if _h : st.failbit = true then (ls, [])
  else
    let got := st.getline '\n' line
    if got.1 = [] then readLoop now got.2 got.1 ls
    else
      let told := got.2.tellg
      let ls := { ls with position := told.1, lastUpdated := now, timeoutTriggered := false }
      let more := readLoop now told.2 got.1 ls
      (more.1, .emplace (log2Se unitTest now ls.path false (String.ofList got.1)) :: more.2)
termination_by st.fuel
decreasing_by
  · exact st.getline_fuel_lt '\n' line (by simpa using _h)
  · exact (got.2.tellg_fuel_le).trans_lt (st.getline_fuel_lt '\n' line (by simpa using _h))

def readStream (v : Visit) (ls : Logfile) : Logfile × List Effect :=
  match v.stream with
  | none => (ls, [])
  | some data =>
    let st := ({ data := data } : InputStream Char).seekg ls.position
    if st.failbit then (ls, []) else readLoop unitTest v.now st [] ls

def checkSize (v : Visit) (size : ℤ) (ls : Logfile) : Logfile × List Effect :=
  if size = ls.size then (ls, [])
  else if size < ls.size then
    let read := readStream unitTest v { ls with position := 0, size := size }
    (read.1, control unitTest v.now ls "!File truncated" :: read.2)
  else readStream unitTest v { ls with size := size }

def checkInode (v : Visit) (inode : UInt64) (size : ℤ) (ls : Logfile) : Logfile × List Effect :=
  if inode ≠ ls.inode then
    let reset := { ls with inode := inode, position := 0, fd := v.reopened }
    let replaced := [control unitTest v.now ls "!File got replaced", .closed ls.fd]
    if v.reopened = -1 then
      (reset, replaced ++ [control unitTest v.now ls "!File went down"])
    else
      let sized := checkSize unitTest v size reset
      (sized.1, replaced ++ .opened v.reopened :: sized.2)
  else checkSize unitTest v size ls

def checkStat (v : Visit) (ls : Logfile) : Logfile × List Effect :=
  match v.stat with
  | none => ({ ls with down := true }, [control unitTest v.now ls "!File went down"])
  | some (inode, size) => checkInode unitTest v inode size ls

/-- A descriptor that a file going down left behind is overwritten here. -/
def bringUp (v : Visit) (ls : Logfile) : Logfile × List Effect :=
  if ls.fd = -1 ∨ ls.down then
    if v.opened = -1 then ({ ls with fd := -1 }, [])
    else
      let alive := checkStat unitTest v
        { ls with fd := v.opened, down := false, timeoutTriggered := false }
      (alive.1, .opened v.opened :: control unitTest v.now ls "!File coming alive" :: alive.2)
  else checkStat unitTest v ls

/-- The body of the loop over `log_states`. -/
def visitFile (v : Visit) (ls : Logfile) : Logfile × List Effect :=
  if ls.config.timeoutAlert ≠ 0 ∧ ls.timeoutTriggered = false ∧
      ls.lastUpdated + ls.config.timeoutAlert.toNat ≤ v.now then
    let up := bringUp unitTest v { ls with timeoutTriggered := true }
    (up.1, control unitTest v.now ls "!Timeout alert" :: up.2)
  else bringUp unitTest v ls

/-- The entry set up for a configured file before the loop starts: `opened` and
`fstat` are the answers of the system, `saved` the entries of the state file. -/
def startFile (saved : List (String × UInt64 × ℤ)) (now opened : ℤ)
    (fstat : Option (UInt64 × ℤ)) (lc : LogfileConfig) : Logfile × List Effect :=
  if opened = -1 then ({ config := lc, down := true }, [])
  else
    let ls : Logfile := { config := lc, fd := opened }
    match fstat with
    | none => ({ ls with down := true }, [.opened opened])
    | some (inode, size) =>
      let found := saved.filter (·.1 = lc.path)
      let position := found.foldl (fun _ s => if inode ≠ s.2.1 then 0 else s.2.2) size
      let replaced := (found.filter (inode ≠ ·.2.1)).map fun _ =>
        control unitTest now ls "!File got replaced"
      ({ ls with inode := inode, size := size, position := position, lastUpdated := now },
        .opened opened :: replaced)

end Task

end Ctguard.LogfileTask
