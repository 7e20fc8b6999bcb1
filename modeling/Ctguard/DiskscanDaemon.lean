import Ctguard.FileDataFactory
import Ctguard.OutputTask
import Ctguard.ScanBatching

/-!
# The threads of the disk scanner

The main thread starts scans, `scan_task` lists their directories, `event_task` and
`rtevent_task` examine objects, `alert_task` compares the results with the database, and
`output_task` sends the alerts. A step of the system is one step of one thread: a wait, an access
to a queue, an examination, or what lies between two of them. A thread that is not blocked may
end with an exception instead. The markers of a scan pass through three queues; the last one is
put back into the second of them by `alert_task`.
-/

namespace Ctguard.DiskscanDaemon

open AlertTask

/-- `watch`, a directory of the configuration. -/
structure Watch where
  path : String
  recursive : Bool
  realtime : Bool
  checkDiff : Bool

structure DiskscanConfig where
  blockSize : ℕ := 1000
  maxDiffSize : UInt32
  scaninterval : ℕ := 21600
  settleTime : ℕ := 100
  watches : List Watch

/-- The threads. That of `watch_task` stands for all that run it. -/
inductive Worker where
  | scan
  | event
  | rtevent
  | alert
  | output
  | watch
  deriving DecidableEq, Repr

/-- The wait for a directory, what is left to put, the code behind the `try` block, and the
end. -/
inductive ScanPhase where
  | loop
  | putting (puts : List (String × Flags)) (stop : Bool)
  | leaving
  | ended

/-- A message for `alert_task`, with the number of the examination it comes from. -/
structure Handed where
  number : Option ℕ := none
  message : Message

/-- The phases of `event_task` and `rtevent_task`. -/
inductive EventPhase where
  | loop
  | examining (path : String) (flags : Flags)
  | putting (h : Handed) (stop : Bool)
  | leaving
  | ended

/-- What `alert_task` puts into a queue. -/
inductive Put where
  | event (e : String × Flags)
  | alert (a : Alert)
  | kill

/-- What comes behind the puts for a message. -/
inductive Ending where
  | goesOn
  | returns
  | throws
  deriving DecidableEq, Repr

inductive AlertPhase where
  | opening
  | loop
  | putting (puts : List Put) (ending : Ending)
  | leaving
  | ended

/-- What the main thread is at. A single run waits for the end of its scan; else it waits for a
signal. In the end, the threads that are left are joined. -/
inductive MainPhase where
  | starting
  | queueing (puts : List (String × Flags)) (initial : Bool)
  | waitingScan
  | waiting
  | stopping
  | killingScan
  | killingRtevent
  | joining (workers : List Worker)

/-- The daemon. What the tasks have taken from their queues is kept, as are the messages that
`alert_task` has handled, the number of examinations, that of the scans that were started, and
the threads that ended with an exception. -/
structure State where
  running : Bool := true
  main : MainPhase := .starting
  scantimer : ℕ := 0
  scanIsRunning : Bool := false
  errorStack : List Worker := []
  scanQueue : List (String × Flags) := []
  scanTask : ScanPhase := .loop
  eventQueue : List (String × Flags) := []
  eventTask : EventPhase := .loop
  rteventQueue : List (ℤ × String × Flags) := []
  rteventTask : EventPhase := .ended
  watchers : ℕ := 0
  fileDataQueue : List Handed := []
  alertTask : AlertPhase := .opening
  table : AlertTask.State := {}
  outputTask : OutputTask.State SourceEvent SourceEvent := {}
  diffs : DiffTable := ∅
  scanTaken : List (String × Flags) := []
  eventTaken : List (String × Flags) := []
  dataTaken : List Handed := []
  handled : List Handed := []
  examined : ℕ := 0
  scans : ℕ := 0
  failed : List Worker := []

inductive Step where
  | main
  | signal
  | timeout
  | scan (found : List String)
  | event
  | examine (answers : Answers)
  | rtevent (now : ℤ)
  | examineRealtime (answers : Answers)
  | notify (time : ℤ) (path : String) (chkContent chkDiff : Bool)
  | created (path : String) (recursive : Bool)
  | watchReturns
  | alert (now : ℤ)
  | output (x : OutputTask.Step SourceEvent)
  | fail (w : Worker)

/-- The event at which a task ends. -/
def killEvent : String × Flags := ("", { kill := true })

def killHanded : Handed where
  message := { flags := { kill := true } }

def killMessage : SourceEvent := { controlMessage := true, message := "!KILL" }

/-- The message of an event without an object. -/
def specialHanded (flags : Flags) : Handed where
  message := { flags := flags }

/-- `event_task` or `rtevent_task` is within its `try` block and not blocked. -/
def EventPhase.awake (idle : Bool) : EventPhase → Bool
  | .loop => !idle
  | .examining _ _ => true
  | .putting _ _ => true
  | .leaving => false
  | .ended => false

namespace State

def putOutput (m : SourceEvent) (s : State) : State :=
  let task := s.outputTask
  { s with outputTask := { task with
    queue := task.queue ++ [(task.puts, m)], puts := task.puts + 1 } }

def hasEnded (s : State) : Worker → Bool
  | .scan => (s.scanTask matches .ended)
  | .event => (s.eventTask matches .ended)
  | .rtevent => (s.rteventTask matches .ended)
  | .alert => (s.alertTask matches .ended)
  | .output => s.outputTask.phase = .ended
  | .watch => s.watchers = 0

/-- The thread is within its `try` block and not blocked by an empty queue. -/
def awake (s : State) : Worker → Bool
  | .scan => match s.scanTask with
    | .loop => !s.scanQueue.isEmpty
    | .putting _ _ => true
    | _ => false
  | .event => s.eventTask.awake s.eventQueue.isEmpty
  | .rtevent => s.rteventTask.awake s.rteventQueue.isEmpty
  | .alert => match s.alertTask with
    | .opening => true
    | .loop => !s.fileDataQueue.isEmpty
    | .putting _ _ => true
    | _ => false
  | .output => s.outputTask.phase ≠ .ended
  | .watch => 0 < s.watchers

/-- The exception is recorded. -/
def throws (w : Worker) (s : State) : State :=
  { s with errorStack := w :: s.errorStack, failed := w :: s.failed }

/-- The catch-all at the end of a task. Four of the tasks go on behind it. -/
def catchAll (w : Worker) (s : State) : State :=
  match w with
  | .scan => { s.throws w with scanTask := .leaving }
  | .event => { s.throws w with eventTask := .leaving }
  | .rtevent => { s.throws w with rteventTask := .leaving }
  | .alert => { s.throws w with alertTask := .leaving }
  | .output => { s.throws w with outputTask := { s.outputTask with phase := .ended } }
  | .watch => { s.throws w with watchers := s.watchers - 1 }

end State

section Task

variable (host : FileHost) (cfg : DiskscanConfig) (singlerun unitTest : Bool) (printTime : ℤ → String)

/-- What the start of a scan puts into the queue. -/
def scanPuts : List (String × Flags) :=
  ("", { startscan := true }) ::
    cfg.watches.map (fun w => (w.path, { recursive := w.recursive, chkDiff := w.checkDiff })) ++
      [("", { midscan := true })]

def startScan (initial : Bool) (s : State) : State :=
  { s with
    scanIsRunning := true, scans := s.scans + 1, main := .queueing (scanPuts cfg) initial }

/-- The start of the threads that are not needed for a single run. -/
def startThreads (s : State) : State :=
  { s with
    rteventTask := .loop, watchers := (cfg.watches.filter Watch.realtime).length,
    main := .waiting }

/-- The threads in the order in which they are joined. -/
def workers : List Worker :=
  if singlerun then [.scan, .event, .alert, .output]
  else [.scan, .event, .rtevent, .alert, .output, .watch]

def mainStep (s : State) : Option State :=
  match s.main with
  | .starting => some (startScan cfg true s)
  | .queueing (e :: es) initial =>
    some { s with scanQueue := s.scanQueue ++ [e], main := .queueing es initial }
  | .queueing [] true =>
    if singlerun then some { s with main := .waitingScan } else some (startThreads cfg s)
  | .queueing [] false => some { s with main := .waiting }
  | .waitingScan => if s.scanIsRunning then none else some { s with main := .killingScan }
  | .waiting => none
  | .stopping => some { s with running := false, main := .killingScan }
  | .killingScan => some { s with
      scanQueue := s.scanQueue ++ [killEvent]
      main := if singlerun then .joining (workers singlerun) else .killingRtevent }
  | .killingRtevent => some { s with
      rteventQueue := s.rteventQueue ++ [(0, killEvent)], main := .joining (workers singlerun) }
  | .joining [] => none
  | .joining (w :: ws) => if s.hasEnded w then some { s with main := .joining ws } else none

/-- A second without a signal: the check for exceptions, and the timer of the scans. -/
def timeout (s : State) : State :=
  if s.errorStack ≠ [] then { s with errorStack := [], main := .stopping }
  else
    let s := { s with scantimer := s.scantimer + 1 }
    if cfg.scaninterval ≤ s.scantimer then startScan cfg false { s with scantimer := 0 } else s

/-- What `scan_task` puts for an entry of its queue. A directory is listed down to where it can be
read. -/
def scanEvents (e : String × Flags) (found : List String) : List (String × Flags) :=
  if e.1 = "" then
    if e.2.special then [("", e.2)] else []
  else found.map fun name =>
    (e.1 ++ "/" ++ name, { chkContent := true, forceUpdate := true, chkDiff := e.2.chkDiff })

def scanStep (found : List String) (s : State) : Option State :=
  match s.scanTask, s.scanQueue with
  | .loop, e :: rest =>
    let s := { s with scanQueue := rest, scanTaken := s.scanTaken ++ [e] }
    some { s with scanTask :=
      if e.2.kill ∨ s.running = false then .putting [killEvent] true
      else .putting (scanEvents e found) false }
  | .putting (e :: es) stop, _ =>
    some { s with eventQueue := s.eventQueue ++ [e], scanTask := .putting es stop }
  | .putting [] stop, _ => some { s with scanTask := if stop then .ended else .loop }
  | .leaving, _ => some { s with eventQueue := s.eventQueue ++ [killEvent], scanTask := .ended }
  | _, _ => none

/-- The puts of `event_task` and `rtevent_task` into their common queue. -/
def putHanded (phase : EventPhase) (s : State) : Option (State × EventPhase) :=
  match phase with
  | .putting h stop => some ({ s with fileDataQueue := s.fileDataQueue ++ [h] },
      if stop then .ended else .loop)
  | .leaving => some ({ s with fileDataQueue := s.fileDataQueue ++ [killHanded] }, .ended)
  | _ => none

def eventStep (s : State) : Option State :=
  match s.eventTask, s.eventQueue with
  | .loop, e :: rest =>
    let s := { s with eventQueue := rest, eventTaken := s.eventTaken ++ [e] }
    some { s with eventTask :=
      if e.2.kill ∨ s.running = false then .putting (specialHanded e.2) true
      else if e.2.special then .putting (specialHanded e.2) false
      else .examining e.1 e.2 }
  | phase, _ => (putHanded phase s).map fun r => { r.1 with eventTask := r.2 }

/-- An event waits until the object has settled. -/
def rteventStep (now : ℤ) (s : State) : Option State :=
  match s.rteventTask, s.rteventQueue with
  | .loop, (time, e) :: rest =>
    if e.2.kill ∨ s.running = false then some { s with rteventTask := .putting killHanded true }
    else if time + cfg.settleTime ≤ now then
      some { s with rteventQueue := rest, rteventTask := .examining e.1 e.2 }
    else some s
  | phase, _ => (putHanded phase s).map fun r => { r.1 with rteventTask := r.2 }

/-- The examination of an object, by one of the two tasks. -/
def examination (w : Worker) (answers : Answers) (path : String) (flags : Flags) (s : State) :
    State × EventPhase :=
  match construct host cfg.maxDiffSize answers s.diffs path flags.chkContent flags.chkDiff with
  | .ok (fileData, diffs) => ({ s with diffs := diffs, examined := s.examined + 1 },
      .putting { number := some s.examined, message := { fileData := fileData, flags := flags } }
        false)
  | .error _ => (s.throws w, .leaving)

def examineStep (answers : Answers) (s : State) : Option State :=
  match s.eventTask with
  | .examining path flags =>
    let r := examination host cfg .event answers path flags s
    some { r.1 with eventTask := r.2 }
  | _ => none

def examineRealtimeStep (answers : Answers) (s : State) : Option State :=
  match s.rteventTask with
  | .examining path flags =>
    let r := examination host cfg .rtevent answers path flags s
    some { r.1 with rteventTask := r.2 }
  | _ => none

/-- What `alert_task` puts into queues while it handles a message. -/
def tablePuts (t : AlertTask.State) : List Put := t.events.map .event ++ t.alerts.map .alert

def handleMessage (h : Handed) (s : State) : State :=
  let t := { s.table with events := [], alerts := [], scanIsRunning := s.scanIsRunning }
  let s := { s with handled := s.handled ++ [h] }
  match AlertTask.handle unitTest cfg.blockSize true h.message t with
  | .ok t => { s with
      table := t, scanIsRunning := t.scanIsRunning, alertTask := .putting (tablePuts t) .goesOn }
  | .error (t, _) => { s with
      table := t, scanIsRunning := t.scanIsRunning, alertTask := .putting (tablePuts t) .throws }

def State.put (now : ℤ) (p : Put) (s : State) : State :=
  match p with
  | .event e => { s with eventQueue := s.eventQueue ++ [e] }
  | .alert a => s.putOutput (a.message printTime unitTest now)
  | .kill => s.putOutput killMessage

def alertStep (now : ℤ) (s : State) : Option State :=
  match s.alertTask, s.fileDataQueue with
  | .opening, _ => some { s with alertTask := .loop }
  | .loop, h :: rest =>
    let s := { s with fileDataQueue := rest, dataTaken := s.dataTaken ++ [h] }
    if h.message.flags.kill ∨ s.running = false then
      some { s with alertTask := .putting [.kill] .returns }
    else some (handleMessage cfg unitTest h s)
  | .putting (p :: ps) ending, _ =>
    some { s.put unitTest printTime now p with alertTask := .putting ps ending }
  | .putting [] .goesOn, _ => some { s with alertTask := .loop }
  | .putting [] .returns, _ => some { s with alertTask := .ended }
  | .putting [] .throws, _ => some (s.catchAll .alert)
  | .leaving, _ => some { s.putOutput killMessage with alertTask := .ended }
  | _, _ => none

def step (s : State) : Step → Option State
  | .main => mainStep cfg singlerun s
  | .signal => match s.main with
    | .waiting => some { s with main := .stopping }
    | _ => none
  | .timeout => match s.main with
    | .waiting => some (timeout cfg s)
    | _ => none
  | .scan found => scanStep found s
  | .event => eventStep s
  | .examine answers => examineStep host cfg answers s
  | .rtevent now => rteventStep cfg now s
  | .examineRealtime answers => examineRealtimeStep host cfg answers s
  | .notify time path chkContent chkDiff =>
    if 0 < s.watchers then
      some { s with rteventQueue := s.rteventQueue ++
        [(time, path, { chkContent := chkContent, chkDiff := chkDiff })] }
    else none
  | .created path recursive =>
    if 0 < s.watchers then
      some { s with scanQueue := s.scanQueue ++ [(path, { recursive := recursive })] }
    else none
  | .watchReturns =>
    if 0 < s.watchers ∧ s.running = false then some { s with watchers := s.watchers - 1 } else none
  | .alert now => alertStep cfg unitTest printTime now s
  | .output x =>
    match x with
    | .emplace _ => none
    | x => (OutputTask.diskscan.step s.outputTask x).map fun task => { s with outputTask := task }
  | .fail w => if s.awake w then some (s.catchAll w) else none

/-- The daemon before its threads have done anything, with the stored tables. -/
def initial (db : Table) (diffs : DiffTable) : State := { table := { db := db }, diffs := diffs }

abbrev run (db : Table) (diffs : DiffTable) (steps : List Step) : Option State :=
  runSteps (step host cfg singlerun unitTest printTime) (initial db diffs) steps

end Task

section Steps

variable {host : FileHost} {cfg : DiskscanConfig} {singlerun unitTest : Bool} {printTime : ℤ → String}
  {s s' : State}

/-- The local data of `alert_task` as it begins with a message. -/
def State.fresh (s : State) : AlertTask.State :=
  { s.table with events := [], alerts := [], scanIsRunning := s.scanIsRunning }

/-- What a step does, by the thread and the branch it takes. -/
inductive Does (host : FileHost) (cfg : DiskscanConfig) (singlerun unitTest : Bool)
    (printTime : ℤ → String) (s : State) : Step → State → Prop where
  | starts (hmain : s.main = .starting) :
      Does host cfg singlerun unitTest printTime s .main (startScan cfg true s)
  | queues {e : String × Flags} {es : List (String × Flags)} {initial : Bool}
      (hmain : s.main = .queueing (e :: es) initial) :
      Does host cfg singlerun unitTest printTime s .main
        { s with scanQueue := s.scanQueue ++ [e], main := .queueing es initial }
  | waits (hmain : s.main = .queueing [] true) (hsingle : singlerun = true) :
      Does host cfg singlerun unitTest printTime s .main { s with main := .waitingScan }
  | watches (hmain : s.main = .queueing [] true) (hsingle : singlerun = false) :
      Does host cfg singlerun unitTest printTime s .main (startThreads cfg s)
  | resumes (hmain : s.main = .queueing [] false) :
      Does host cfg singlerun unitTest printTime s .main { s with main := .waiting }
  | sees (hmain : s.main = .waitingScan) (hscan : s.scanIsRunning = false) :
      Does host cfg singlerun unitTest printTime s .main { s with main := .killingScan }
  | stops {x : Step} (errors : List Worker) (hx : x = .signal ∨ x = .timeout)
      (hmain : s.main = .waiting) :
      Does host cfg singlerun unitTest printTime s x
        { s with errorStack := errors, main := .stopping }
  | ticks (hmain : s.main = .waiting) :
      Does host cfg singlerun unitTest printTime s .timeout
        { s with scantimer := s.scantimer + 1 }
  | rescans (hmain : s.main = .waiting) (herrors : s.errorStack = [])
      (htimer : cfg.scaninterval ≤ s.scantimer + 1) :
      Does host cfg singlerun unitTest printTime s .timeout
        (startScan cfg false { s with scantimer := 0 })
  | clears (hmain : s.main = .stopping) :
      Does host cfg singlerun unitTest printTime s .main
        { s with running := false, main := .killingScan }
  | killsScan (hmain : s.main = .killingScan) :
      Does host cfg singlerun unitTest printTime s .main { s with
        scanQueue := s.scanQueue ++ [killEvent]
        main := if singlerun then .joining (workers singlerun) else .killingRtevent }
  | killsRtevent (hmain : s.main = .killingRtevent) :
      Does host cfg singlerun unitTest printTime s .main { s with
        rteventQueue := s.rteventQueue ++ [(0, killEvent)], main := .joining (workers singlerun) }
  | joins {w : Worker} {ws : List Worker} (hmain : s.main = .joining (w :: ws))
      (hended : s.hasEnded w = true) :
      Does host cfg singlerun unitTest printTime s .main { s with main := .joining ws }
  | lists {e : String × Flags} {rest : List (String × Flags)} (found : List String)
      (hphase : s.scanTask = .loop) (hqueue : s.scanQueue = e :: rest)
      (hkill : e.2.kill = false) (hrunning : s.running = true) :
      Does host cfg singlerun unitTest printTime s (.scan found) { s with
        scanQueue := rest
        scanTaken := s.scanTaken ++ [e]
        scanTask := .putting (scanEvents e found) false }
  | takesScanKill {e : String × Flags} {rest : List (String × Flags)} (found : List String)
      (hphase : s.scanTask = .loop) (hqueue : s.scanQueue = e :: rest)
      (hkill : e.2.kill = true ∨ s.running = false) :
      Does host cfg singlerun unitTest printTime s (.scan found) { s with
        scanQueue := rest
        scanTaken := s.scanTaken ++ [e]
        scanTask := .putting [killEvent] true }
  | putsScan {e : String × Flags} {es : List (String × Flags)} {stop : Bool} (found : List String)
      (hphase : s.scanTask = .putting (e :: es) stop) :
      Does host cfg singlerun unitTest printTime s (.scan found)
        { s with eventQueue := s.eventQueue ++ [e], scanTask := .putting es stop }
  | nextScan {stop : Bool} (found : List String) (hphase : s.scanTask = .putting [] stop) :
      Does host cfg singlerun unitTest printTime s (.scan found)
        { s with scanTask := if stop then .ended else .loop }
  | leavesScan (found : List String) (hphase : s.scanTask = .leaving) :
      Does host cfg singlerun unitTest printTime s (.scan found)
        { s with eventQueue := s.eventQueue ++ [killEvent], scanTask := .ended }
  | takesEvent {e : String × Flags} {rest : List (String × Flags)} (hphase : s.eventTask = .loop)
      (hqueue : s.eventQueue = e :: rest) (hspecial : e.2.special = false)
      (hrunning : s.running = true) :
      Does host cfg singlerun unitTest printTime s .event { s with
        eventQueue := rest
        eventTaken := s.eventTaken ++ [e]
        eventTask := .examining e.1 e.2 }
  | takesSpecial {e : String × Flags} {rest : List (String × Flags)} (stop : Bool)
      (hphase : s.eventTask = .loop) (hqueue : s.eventQueue = e :: rest)
      (hspecial : stop = false → e.2.special = true)
      (hstop : stop = true ↔ e.2.kill = true ∨ s.running = false) :
      Does host cfg singlerun unitTest printTime s .event { s with
        eventQueue := rest
        eventTaken := s.eventTaken ++ [e]
        eventTask := .putting (specialHanded e.2) stop }
  | putsHanded {h : Handed} {stop : Bool} (hphase : s.eventTask = .putting h stop) :
      Does host cfg singlerun unitTest printTime s .event { s with
        fileDataQueue := s.fileDataQueue ++ [h], eventTask := if stop then .ended else .loop }
  | leavesEvent (hphase : s.eventTask = .leaving) :
      Does host cfg singlerun unitTest printTime s .event
        { s with fileDataQueue := s.fileDataQueue ++ [killHanded], eventTask := .ended }
  | examines {answers : Answers} {path : String} {flags : Flags} {fileData : Option FileData}
      {diffs : DiffTable} (hphase : s.eventTask = .examining path flags)
      (hresult : construct host cfg.maxDiffSize answers s.diffs path flags.chkContent
        flags.chkDiff = .ok (fileData, diffs)) :
      Does host cfg singlerun unitTest printTime s (.examine answers) { s with
        diffs := diffs
        examined := s.examined + 1
        eventTask := .putting
          { number := some s.examined, message := { fileData := fileData, flags := flags } } false }
  | examinesNot {answers : Answers} {path : String} {flags : Flags} {what : String}
      (hphase : s.eventTask = .examining path flags)
      (hresult : construct host cfg.maxDiffSize answers s.diffs path flags.chkContent
        flags.chkDiff = .error what) :
      Does host cfg singlerun unitTest printTime s (.examine answers) (s.catchAll .event)
  | sleeps (now : ℤ) (hphase : s.rteventTask = .loop) :
      Does host cfg singlerun unitTest printTime s (.rtevent now) s
  | seesKill {time : ℤ} {e : String × Flags} {rest : List (ℤ × String × Flags)} (now : ℤ)
      (hphase : s.rteventTask = .loop) (hqueue : s.rteventQueue = (time, e) :: rest)
      (hkill : e.2.kill = true ∨ s.running = false) :
      Does host cfg singlerun unitTest printTime s (.rtevent now)
        { s with rteventTask := .putting killHanded true }
  | takesRtevent {time : ℤ} {e : String × Flags} {rest : List (ℤ × String × Flags)} (now : ℤ)
      (hphase : s.rteventTask = .loop) (hqueue : s.rteventQueue = (time, e) :: rest)
      (hkill : e.2.kill = false) (hrunning : s.running = true) :
      Does host cfg singlerun unitTest printTime s (.rtevent now)
        { s with rteventQueue := rest, rteventTask := .examining e.1 e.2 }
  | putsRealtime {h : Handed} {stop : Bool} (now : ℤ) (hphase : s.rteventTask = .putting h stop) :
      Does host cfg singlerun unitTest printTime s (.rtevent now) { s with
        fileDataQueue := s.fileDataQueue ++ [h], rteventTask := if stop then .ended else .loop }
  | leavesRtevent (now : ℤ) (hphase : s.rteventTask = .leaving) :
      Does host cfg singlerun unitTest printTime s (.rtevent now)
        { s with fileDataQueue := s.fileDataQueue ++ [killHanded], rteventTask := .ended }
  | examinesRealtime {answers : Answers} {path : String} {flags : Flags}
      {fileData : Option FileData} {diffs : DiffTable}
      (hphase : s.rteventTask = .examining path flags)
      (hresult : construct host cfg.maxDiffSize answers s.diffs path flags.chkContent
        flags.chkDiff = .ok (fileData, diffs)) :
      Does host cfg singlerun unitTest printTime s (.examineRealtime answers) { s with
        diffs := diffs
        examined := s.examined + 1
        rteventTask := .putting
          { number := some s.examined, message := { fileData := fileData, flags := flags } } false }
  | examinesRealtimeNot {answers : Answers} {path : String} {flags : Flags} {what : String}
      (hphase : s.rteventTask = .examining path flags)
      (hresult : construct host cfg.maxDiffSize answers s.diffs path flags.chkContent
        flags.chkDiff = .error what) :
      Does host cfg singlerun unitTest printTime s (.examineRealtime answers) (s.catchAll .rtevent)
  | notifies {time : ℤ} {path : String} {chkContent chkDiff : Bool} (hwatch : 0 < s.watchers) :
      Does host cfg singlerun unitTest printTime s (.notify time path chkContent chkDiff) { s with
        rteventQueue := s.rteventQueue ++
          [(time, path, { chkContent := chkContent, chkDiff := chkDiff })] }
  | creates {path : String} {recursive : Bool} (hwatch : 0 < s.watchers) :
      Does host cfg singlerun unitTest printTime s (.created path recursive)
        { s with scanQueue := s.scanQueue ++ [(path, { recursive := recursive })] }
  | watchEnds (hwatch : 0 < s.watchers) (hrunning : s.running = false) :
      Does host cfg singlerun unitTest printTime s .watchReturns
        { s with watchers := s.watchers - 1 }
  | opens (now : ℤ) (hphase : s.alertTask = .opening) :
      Does host cfg singlerun unitTest printTime s (.alert now) { s with alertTask := .loop }
  | takesKill {h : Handed} {rest : List Handed} (now : ℤ) (hphase : s.alertTask = .loop)
      (hqueue : s.fileDataQueue = h :: rest)
      (hkill : h.message.flags.kill = true ∨ s.running = false) :
      Does host cfg singlerun unitTest printTime s (.alert now) { s with
        fileDataQueue := rest
        dataTaken := s.dataTaken ++ [h]
        alertTask := .putting [.kill] .returns }
  | handles {h : Handed} {rest : List Handed} {t : AlertTask.State} {ending : Ending} (now : ℤ)
      (hphase : s.alertTask = .loop) (hqueue : s.fileDataQueue = h :: rest)
      (hkill : h.message.flags.kill = false) (hrunning : s.running = true)
      (hresult : (ending = .goesOn ∧
          AlertTask.handle unitTest cfg.blockSize true h.message s.fresh = .ok t) ∨
        (ending = .throws ∧ ∃ what,
          AlertTask.handle unitTest cfg.blockSize true h.message s.fresh = .error (t, what))) :
      Does host cfg singlerun unitTest printTime s (.alert now) { s with
        fileDataQueue := rest
        dataTaken := s.dataTaken ++ [h]
        handled := s.handled ++ [h]
        table := t
        scanIsRunning := t.scanIsRunning
        alertTask := .putting (tablePuts t) ending }
  | puts {p : Put} {ps : List Put} {ending : Ending} (now : ℤ)
      (hphase : s.alertTask = .putting (p :: ps) ending) :
      Does host cfg singlerun unitTest printTime s (.alert now)
        { s.put unitTest printTime now p with alertTask := .putting ps ending }
  | goesOn (now : ℤ) (hphase : s.alertTask = .putting [] .goesOn) :
      Does host cfg singlerun unitTest printTime s (.alert now) { s with alertTask := .loop }
  | returns (now : ℤ) (hphase : s.alertTask = .putting [] .returns) :
      Does host cfg singlerun unitTest printTime s (.alert now) { s with alertTask := .ended }
  | throws (now : ℤ) (hphase : s.alertTask = .putting [] .throws) :
      Does host cfg singlerun unitTest printTime s (.alert now) (s.catchAll .alert)
  | leavesAlert (now : ℤ) (hphase : s.alertTask = .leaving) :
      Does host cfg singlerun unitTest printTime s (.alert now)
        { s.putOutput killMessage with alertTask := .ended }
  | sends {x : OutputTask.Step SourceEvent} {task : OutputTask.State SourceEvent SourceEvent}
      (hx : ∀ m, x ≠ .emplace m)
      (hstep : OutputTask.diskscan.step s.outputTask x = some task) :
      Does host cfg singlerun unitTest printTime s (.output x) { s with outputTask := task }
  | fails {w : Worker} (hawake : s.awake w = true) :
      Does host cfg singlerun unitTest printTime s (.fail w) (s.catchAll w)

theorem main_does (h : mainStep cfg singlerun s = some s') :
    Does host cfg singlerun unitTest printTime s .main s' := by
  rw [mainStep] at h
  split at h
  case h_1 hmain =>
    obtain rfl := Option.some.inj h
    exact .starts hmain
  case h_2 hmain =>
    obtain rfl := Option.some.inj h
    exact .queues hmain
  case h_3 hmain =>
    split at h
    · rename_i hsingle
      obtain rfl := Option.some.inj h
      exact .waits hmain hsingle
    · rename_i hsingle
      obtain rfl := Option.some.inj h
      exact .watches hmain (Bool.not_eq_true _ ▸ hsingle)
  case h_4 hmain =>
    obtain rfl := Option.some.inj h
    exact .resumes hmain
  case h_5 hmain =>
    split at h
    · cases h
    · rename_i hscan
      obtain rfl := Option.some.inj h
      exact .sees hmain (Bool.not_eq_true _ ▸ hscan)
  case h_6 hmain => cases h
  case h_7 hmain =>
    obtain rfl := Option.some.inj h
    exact .clears hmain
  case h_8 hmain =>
    obtain rfl := Option.some.inj h
    exact .killsScan hmain
  case h_9 hmain =>
    obtain rfl := Option.some.inj h
    exact .killsRtevent hmain
  case h_10 hmain => cases h
  case h_11 hmain =>
    split at h
    · rename_i hended
      obtain rfl := Option.some.inj h
      exact .joins hmain hended
    · cases h

theorem timeout_does (hmain : s.main = .waiting) :
    Does host cfg singlerun unitTest printTime s .timeout (timeout cfg s) := by
  rw [timeout]
  split
  · exact .stops [] (.inr rfl) hmain
  · rename_i herrors
    simp only
    split
    · rename_i htimer
      exact .rescans hmain (not_not.mp herrors) htimer
    · exact .ticks hmain

theorem scan_does {found : List String} (h : scanStep found s = some s') :
    Does host cfg singlerun unitTest printTime s (.scan found) s' := by
  rw [scanStep] at h
  split at h
  · rename_i e rest hphase hqueue
    obtain rfl := Option.some.inj h
    by_cases hkill : e.2.kill = true ∨ s.running = false
    · simp only [if_pos hkill]
      exact .takesScanKill found hphase hqueue hkill
    · simp only [if_neg hkill]
      rw [not_or, Bool.not_eq_true, Bool.not_eq_false] at hkill
      exact .lists found hphase hqueue hkill.1 hkill.2
  · rename_i hphase
    obtain rfl := Option.some.inj h
    exact .putsScan found hphase
  · rename_i hphase
    obtain rfl := Option.some.inj h
    exact .nextScan found hphase
  · rename_i hphase
    obtain rfl := Option.some.inj h
    exact .leavesScan found hphase
  · cases h

theorem putHanded_cases {phase : EventPhase} {r : State × EventPhase}
    (h : putHanded phase s = some r) :
    (∃ hd stop, phase = .putting hd stop ∧ r = ({ s with
      fileDataQueue := s.fileDataQueue ++ [hd] }, if stop then .ended else .loop)) ∨
    (phase = .leaving ∧
      r = ({ s with fileDataQueue := s.fileDataQueue ++ [killHanded] }, .ended)) := by
  cases phase with
  | putting hd stop => exact .inl ⟨hd, stop, rfl, (Option.some.inj h).symm⟩
  | leaving => exact .inr ⟨rfl, (Option.some.inj h).symm⟩
  | _ => cases h

theorem event_does (h : eventStep s = some s') :
    Does host cfg singlerun unitTest printTime s .event s' := by
  rw [eventStep] at h
  split at h
  · rename_i e rest hphase hqueue
    obtain rfl := Option.some.inj h
    by_cases hkill : e.2.kill = true ∨ s.running = false
    · simp only [if_pos hkill]
      exact .takesSpecial true hphase hqueue (by simp) (iff_of_true rfl hkill)
    · simp only [if_neg hkill]
      by_cases hspecial : e.2.special = true
      · simp only [if_pos hspecial]
        exact .takesSpecial false hphase hqueue (fun _ => hspecial) (iff_of_false (by simp) hkill)
      · simp only [if_neg hspecial]
        rw [not_or, Bool.not_eq_true, Bool.not_eq_false] at hkill
        exact .takesEvent hphase hqueue (Bool.not_eq_true _ ▸ hspecial) hkill.2
  · obtain ⟨r, hr, rfl⟩ := Option.map_eq_some_iff.mp h
    rcases putHanded_cases hr with ⟨hd, stop, hphase, rfl⟩ | ⟨hphase, rfl⟩
    · exact .putsHanded hphase
    · exact .leavesEvent hphase

theorem rtevent_does {now : ℤ} (h : rteventStep cfg now s = some s') :
    Does host cfg singlerun unitTest printTime s (.rtevent now) s' := by
  rw [rteventStep] at h
  split at h
  · rename_i time e rest hphase hqueue
    split at h
    · rename_i hkill
      obtain rfl := Option.some.inj h
      exact .seesKill now hphase hqueue hkill
    · rename_i hkill
      rw [not_or, Bool.not_eq_true, Bool.not_eq_false] at hkill
      split at h
      · obtain rfl := Option.some.inj h
        exact .takesRtevent now hphase hqueue hkill.1 hkill.2
      · obtain rfl := Option.some.inj h
        exact .sleeps now hphase
  · obtain ⟨r, hr, rfl⟩ := Option.map_eq_some_iff.mp h
    rcases putHanded_cases hr with ⟨hd, stop, hphase, rfl⟩ | ⟨hphase, rfl⟩
    · exact .putsRealtime now hphase
    · exact .leavesRtevent now hphase

theorem examine_does {answers : Answers} (h : examineStep host cfg answers s = some s') :
    Does host cfg singlerun unitTest printTime s (.examine answers) s' := by
  rw [examineStep] at h
  split at h
  · rename_i path flags hphase
    obtain rfl := Option.some.inj h
    simp only [examination]
    split
    · rename_i fileData diffs hresult
      exact .examines hphase hresult
    · rename_i what hresult
      exact .examinesNot hphase hresult
  · cases h

theorem examineRealtime_does {answers : Answers}
    (h : examineRealtimeStep host cfg answers s = some s') :
    Does host cfg singlerun unitTest printTime s (.examineRealtime answers) s' := by
  rw [examineRealtimeStep] at h
  split at h
  · rename_i path flags hphase
    obtain rfl := Option.some.inj h
    simp only [examination]
    split
    · rename_i fileData diffs hresult
      exact .examinesRealtime hphase hresult
    · rename_i what hresult
      exact .examinesRealtimeNot hphase hresult
  · cases h

theorem handles_does {now : ℤ} {h : Handed} {rest : List Handed} (hphase : s.alertTask = .loop)
    (hqueue : s.fileDataQueue = h :: rest) (hkill : h.message.flags.kill = false)
    (hrunning : s.running = true) :
    Does host cfg singlerun unitTest printTime s (.alert now) (handleMessage cfg unitTest h
      { s with fileDataQueue := rest, dataTaken := s.dataTaken ++ [h] }) := by
  have hfresh : { s.table with events := [], alerts := [], scanIsRunning := s.scanIsRunning } =
      s.fresh := rfl
  cases hresult : AlertTask.handle unitTest cfg.blockSize true h.message s.fresh with
  | ok t =>
    simp only [handleMessage, hfresh, hresult]
    exact .handles now hphase hqueue hkill hrunning (.inl ⟨rfl, hresult⟩)
  | error r =>
    simp only [handleMessage, hfresh, hresult]
    exact .handles now hphase hqueue hkill hrunning (.inr ⟨rfl, r.2, hresult⟩)

theorem alert_does {now : ℤ} (h : alertStep cfg unitTest printTime now s = some s') :
    Does host cfg singlerun unitTest printTime s (.alert now) s' := by
  rw [alertStep] at h
  split at h
  · rename_i hphase
    obtain rfl := Option.some.inj h
    exact .opens now hphase
  · rename_i e rest hphase hqueue
    by_cases hkill : e.message.flags.kill = true ∨ s.running = false
    · simp only [if_pos hkill] at h
      obtain rfl := Option.some.inj h
      exact .takesKill now hphase hqueue hkill
    · simp only [if_neg hkill] at h
      rw [not_or, Bool.not_eq_true, Bool.not_eq_false] at hkill
      obtain rfl := Option.some.inj h
      exact handles_does hphase hqueue hkill.1 hkill.2
  · rename_i hphase
    obtain rfl := Option.some.inj h
    exact .puts now hphase
  · rename_i hphase
    obtain rfl := Option.some.inj h
    exact .goesOn now hphase
  · rename_i hphase
    obtain rfl := Option.some.inj h
    exact .returns now hphase
  · rename_i hphase
    obtain rfl := Option.some.inj h
    exact .throws now hphase
  · rename_i hphase
    obtain rfl := Option.some.inj h
    exact .leavesAlert now hphase
  · cases h

theorem does_of_step {x : Step} (h : step host cfg singlerun unitTest printTime s x = some s') :
    Does host cfg singlerun unitTest printTime s x s' := by
  cases x with
  | main => exact main_does h
  | signal =>
    simp only [step] at h
    split at h
    · rename_i hmain
      obtain rfl := Option.some.inj h
      exact .stops s.errorStack (.inl rfl) hmain
    · cases h
  | timeout =>
    simp only [step] at h
    split at h
    · rename_i hmain
      obtain rfl := Option.some.inj h
      exact timeout_does hmain
    · cases h
  | scan found => exact scan_does h
  | event => exact event_does h
  | examine answers => exact examine_does h
  | rtevent now => exact rtevent_does h
  | examineRealtime answers => exact examineRealtime_does h
  | notify time path chkContent chkDiff =>
    simp only [step, Option.ite_none_right_eq_some, Option.some.injEq] at h
    obtain ⟨hwatch, rfl⟩ := h
    exact .notifies hwatch
  | created path recursive =>
    simp only [step, Option.ite_none_right_eq_some, Option.some.injEq] at h
    obtain ⟨hwatch, rfl⟩ := h
    exact .creates hwatch
  | watchReturns =>
    simp only [step, Option.ite_none_right_eq_some, Option.some.injEq] at h
    obtain ⟨⟨hwatch, hrunning⟩, rfl⟩ := h
    exact .watchEnds hwatch hrunning
  | alert now => exact alert_does h
  | output x =>
    cases x with
    | emplace m => cases h
    | _ =>
      obtain ⟨task, htask, rfl⟩ := Option.map_eq_some_iff.mp h
      exact .sends (by simp) htask
  | fail w =>
    simp only [step, Option.ite_none_right_eq_some, Option.some.injEq] at h
    obtain ⟨hawake, rfl⟩ := h
    exact .fails hawake

end Steps

end Ctguard.DiskscanDaemon
