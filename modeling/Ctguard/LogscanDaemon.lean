import Ctguard.LogfileDelivery
import Ctguard.OutputTask
import Ctguard.StopMessage

/-!
# The threads of the log scanner

`logfile_task`, `systemd_task` and the main thread put messages into one queue, from which
`output_task` takes them. A step of the system is one step of one thread. The scan of a file
is one step, but its messages are put one by one, so that other threads come between them.
With every entry the lines are kept that lie before its position.
-/

namespace Ctguard.LogscanDaemon

open LogfileTask OutputTask

/-- An entry with the lines read in this run that lie before its position, each with the
number under which it was put into the queue. -/
structure Tracked where
  entry : Logfile
  passed : List (ℕ × SourceEvent) := []

/-- A visit that starts the file over: it has been replaced or truncated. -/
def resets (v : Visit) (ls : Logfile) : Bool :=
  if (ls.fd = -1 ∨ ls.down = true) ∧ v.opened = -1 then false
  else
    match v.stat with
    | none => false
    | some (inode, size) => inode ≠ ls.inode ∨ size < ls.size

/-- A position that could not be read back is `-1`, and no line lies before it. -/
def Tracked.visit (unitTest : Bool) (v : Visit) (t : Tracked) : Tracked :=
  let ls := (visitFile unitTest v t.entry).1
  { entry := ls
    passed := if resets v t.entry = true ∨ ls.position < 0 then [] else t.passed }

def Tracked.record (e : ℕ × SourceEvent) (t : Tracked) : Tracked :=
  if e.2.controlMessage = false ∧ 0 ≤ t.entry.position then { t with passed := t.passed ++ [e] }
  else t

/-- What `logfile_task` is at: setting up the entries, the head of its loop, between two
files, putting the messages of a file, or returned, with what it has saved. -/
inductive ScanPhase where
  | opening (done : List Tracked) (pending : List SourceEvent) (todo : List LogfileConfig)
  | head (all : List Tracked)
  | visiting (done todo : List Tracked)
  | putting (done : List Tracked) (current : Tracked) (pending : List SourceEvent)
      (todo : List Tracked)
  | ended (saved : Option (List Tracked))

/-- What the main thread has done last. -/
inductive MainPhase where
  | starting
  | waiting
  | stopping
  | cleared
  | killed
  deriving DecidableEq, Repr

structure State where
  running : Bool := true
  main : MainPhase := .starting
  scan : ScanPhase
  systemd : Bool := true
  out : OutputTask.State SourceEvent SourceEvent := {}
  history : List (ℕ × SourceEvent) := []

inductive Step where
  | main (now : ℤ)
  | start (now opened : ℤ) (fstat : Option (UInt64 × ℤ))
  | visit (v : Visit)
  | put
  | next
  | systemd (now : ℤ) (message : String)
  | systemdReturns
  | output (x : OutputTask.Step SourceEvent)

/-- What is put into the queue is kept with its number. -/
def State.put (s : State) (m : SourceEvent) : State :=
  { s with
    out := { s.out with queue := s.out.queue ++ [(s.out.puts, m)], puts := s.out.puts + 1 }
    history := s.history ++ [(s.out.puts, m)] }

def killMessage : SourceEvent := { controlMessage := true, message := "!KILL" }

def systemdMessage (now : ℤ) (message : String) : SourceEvent where
  message := message
  sourceDomain := "systemd_syslog"
  sourceProgram := "ctguard-logscan"
  timeScanned := now

section Task

variable (unitTest : Bool) (saved : List (String × UInt64 × ℤ))

/-- The main thread waits for a signal or an exception of a thread, and stops the others. -/
def mainStep (now : ℤ) (s : State) : Option State :=
  match s.main with
  | .starting => some { s.put (log2Se unitTest now "daemon" true "ctguard-logscan started") with
      main := .waiting }
  | .waiting => some {
      s.put (log2Se unitTest now "daemon" true "ctguard-logscan shutting down...") with
      main := .stopping }
  | .stopping => some { s with running := false, main := .cleared }
  | .cleared => some { s.put killMessage with main := .killed }
  | .killed => none

/-- The control flow of `logfile_task` between its accesses to files and the queue. -/
def nextPhase (running : Bool) : ScanPhase → Option ScanPhase
  | .opening [] [] [] => some (.ended none)
  | .opening done [] [] => some (.head done)
  | .head all => some (if running then .visiting [] all else .ended (some all))
  | .putting done current [] todo => some (.visiting (done ++ [current]) todo)
  | .visiting done [] => some (.head done)
  | _ => none

def step (s : State) : Step → Option State
  | .main now => mainStep unitTest now s
  | .start now opened fstat =>
    match s.scan with
    | .opening done [] (lc :: todo) =>
      let r := startFile unitTest saved now opened fstat lc
      some { s with scan := .opening (done ++ [{ entry := r.1 }]) (queued r.2) todo }
    | _ => none
  | .visit v =>
    match s.scan with
    | .visiting done (t :: todo) => some { s with
        scan := .putting done (t.visit unitTest v) (queued (visitFile unitTest v t.entry).2) todo }
    | _ => none
  | .put =>
    match s.scan with
    | .opening done (m :: ms) todo => some { s.put m with scan := .opening done ms todo }
    | .putting done current (m :: ms) todo => some { s.put m with
        scan := .putting done (current.record (s.out.puts, m)) ms todo }
    | _ => none
  | .next => (nextPhase s.running s.scan).map fun scan => { s with scan := scan }
  | .systemd now message => if s.systemd then some (s.put (systemdMessage now message)) else none
  | .systemdReturns => if s.systemd then some { s with systemd := false } else none
  | .output x =>
    match x with
    | .emplace _ => none
    | x => (logscan.step s.out x).map fun out => { s with out := out }

/-- The daemon before its threads have done anything. -/
def initial (logFiles : List LogfileConfig) : State := { scan := .opening [] [] logFiles }

abbrev run (logFiles : List LogfileConfig) (steps : List Step) : Option State :=
  runSteps (step unitTest saved) (initial logFiles) steps

end Task

/-- All threads have returned, and the main thread has joined them. -/
structure Joined (s : State) : Prop where
  main : s.main = .killed
  scan : ∃ final, s.scan = .ended final
  systemd : s.systemd = false
  out : s.out.phase = .ended

/-- Every line before the position that the final `save_state` has written for its file was
handed to the sink or is counted in the warning. -/
def ForgetsNothing (s : State) : Prop :=
  ∀ final, s.scan = .ended (some final) → ∀ t ∈ final, ∀ e ∈ t.passed,
    e ∈ s.out.delivered ∨ (e ∈ s.out.localQueue ∧
      s.out.warnings = [logscan.discarding s.out.localQueue.length])

/-- A line that the position of its file has passed is put before the kill message. -/
def PutInTime (s : State) (x : Step) : Prop :=
  ∀ done current m ms todo, x = .put → s.scan = .putting done current (m :: ms) todo →
    m.controlMessage = false → 0 ≤ current.entry.position → s.main ≠ .killed

end Ctguard.LogscanDaemon
