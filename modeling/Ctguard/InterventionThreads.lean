import Ctguard.InterventionDaemon
import Ctguard.SocketMessages
import Ctguard.StepRuns

/-!
# The threads of the intervention daemon

`input_task` puts the commands that it can decode into a queue, and `processing_task` runs them one
after the other: it checks a command, starts a process for it, watches this process until it ends
or its time is over, and reads what it has printed. The main thread waits for a signal, or for an
exception of one of the two. `processing_task` does not look at `RUNNING`: it ends at the message
that `input_task` puts last.
-/

namespace Ctguard.InterventionThreads

open InterventionConfig

inductive Worker where
  | input
  | processing
  deriving DecidableEq, Repr

/-- The creation of the socket, the check of `RUNNING`, the loop over datagrams, the code behind the
`try` block, and the end. -/
inductive InputPhase where
  | opening
  | head
  | receiving
  | leaving
  | ended
  deriving DecidableEq, Repr

/-- The wait for a command, the pipes and the fork for one that was checked, the loop around
`waitpid`, the loops over both pipes, and the end. -/
inductive ProcessingPhase where
  | loop
  | starting (icmd : InterventionCmd String) (action : InterventionAction)
  | watching (icmd : InterventionCmd String) (action : InterventionAction) (pid timeout : ℕ)
  | reading (icmd : InterventionCmd String) (fromStderr : Bool)
  | ended
  deriving DecidableEq, Repr

inductive MainPhase where
  | waiting
  | joining (workers : List Worker)
  deriving DecidableEq, Repr

/-- What has become of a process that was started. It may run on if `kill` has failed, and if
`processing_task` has ended with an exception while it watched the process. -/
inductive Fate where
  | watched
  | reaped
  | killed
  | notKilled (what : String)
  | abandoned
  deriving DecidableEq, Repr

inductive Level where
  | error
  | warning
  | info
  deriving DecidableEq, Repr

/-- What comes of `pipe2`, `fork` and, in the child, of the code before `execv`. -/
inductive Start where
  | noPipe
  | onePipe
  | noFork
  | gaveUp
  | reached
  deriving DecidableEq, Repr

/-- What `waitpid` says without waiting. A process that has ended did so by itself, with a value,
or by a signal. -/
inductive WaitAnswer where
  | error (what : String)
  | running
  | ended (value : Option ℕ)
  deriving DecidableEq, Repr

/-- What a `read` from a pipe says. -/
inductive ReadAnswer where
  | again
  | error (what : String)
  | bytes (bs : Bytes)

/-- The daemon. The commands that were put, those that `processing_task` is through with, the calls
of `execv` and the processes are kept, as are the descriptors of pipes that are open, and the
threads that ended with an exception. -/
structure State where
  running : Bool := true
  main : MainPhase := .waiting
  errorStack : List Worker := []
  inputTask : InputPhase := .opening
  queue : List (InterventionCmd String × Bool) := []
  processingTask : ProcessingPhase := .loop
  log : List (Level × String) := []
  puts : List (InterventionCmd String) := []
  done : List Received := []
  executions : List Execution := []
  processes : List Fate := []
  pipes : ℕ := 0
  failed : List Worker := []

inductive Step where
  | signal
  | timeout
  | join
  | input
  /-- `recv` returns an error, or a datagram. -/
  | receive (datagram : Option Bytes)
  | take
  | start (answer : Start) (pid : ℕ)
  /-- The answers of `waitpid`, and of `kill` should it be called. -/
  | poll (answer : WaitAnswer) (kill : Except String Unit)
  | read (answer : ReadAnswer)
  | fail (w : Worker)

/-- The command in a datagram, with the characters that have the numbers of its bytes. -/
def decode (datagram : Bytes) : Option (InterventionCmd String) :=
  (interventionInput datagram).map fun cmd =>
    ⟨String.ofList (cmd.name.bytes.map Char.ofUInt8),
      String.ofList (cmd.argument.bytes.map Char.ofUInt8)⟩

section Texts

variable {ρ : Type} (host : Host ρ) (cfg : InterventionConfig)

/-- The checks of a command. One that is refused is logged. -/
def check (icmd : InterventionCmd String) : Except (Level × String) InterventionAction :=
  match cfg.findAction icmd.name with
  | none => .error (.error, "No action found with name '" ++ icmd.name ++ "'")
  | some action =>
    match host.compile action.regex with
    | .error what => .error (.error, "Can not validate argument '" ++ icmd.argument ++
        "' against regex '" ++ action.regex ++ "' for intervention '" ++ icmd.name ++ "': " ++ what)
    | .ok r =>
      if (host.fullMatch r icmd.argument).isSome then
        if action.whitelist.contains icmd.argument then
          .error (.info, "Not running intervention '" ++ icmd.name ++ "', cause argument '" ++
            icmd.argument ++ "' is whitelisted")
        else .ok action
      else .error (.error, "Argument '" ++ icmd.argument ++ "' does not match regex '" ++
        action.regex ++ "' for intervention '" ++ icmd.name ++ "'")

def actionText (icmd : InterventionCmd String) : String :=
  "Action '" ++ icmd.name ++ "' with argument '" ++ icmd.argument ++ "'"

/-- The report on a process that has ended. -/
def report (icmd : InterventionCmd String) : Option ℕ → Level × String
  | none => (.error, actionText icmd ++ " did not exit")
  | some 0 => (.info, actionText icmd ++ " successfully executed")
  | some value => (.error, actionText icmd ++ " did exit with value " ++ toString value)

/-- The lines of what a `read` has returned, but for empty ones. -/
def pieces (bs : Bytes) : List Bytes := (bs.splitOn 10).filter (· ≠ [])

/-- What is logged of the output of a process. -/
def printed (icmd : InterventionCmd String) (fromStderr : Bool) (bs : Bytes) :
    List (Level × String) :=
  (pieces bs).map fun line =>
    (if fromStderr then .warning else .info, actionText icmd ++ " printed to " ++
      (if fromStderr then "stderr" else "stdout") ++ ": '" ++
        String.ofList (line.map Char.ofUInt8) ++ "'")

end Texts

namespace State

def throws (w : Worker) (s : State) : State :=
  { s with errorStack := w :: s.errorStack, failed := w :: s.failed }

/-- The thread is within its `try` block and not blocked by an empty queue. -/
def awake (s : State) : Worker → Bool
  | .input => match s.inputTask with
    | .opening => true
    | .head => true
    | .receiving => true
    | _ => false
  | .processing => match s.processingTask with
    | .loop => !s.queue.isEmpty
    | .ended => false
    | _ => true

def hasEnded (s : State) : Worker → Bool
  | .input => s.inputTask = .ended
  | .processing => s.processingTask = .ended

/-- The process that is watched gets a fate. -/
def settle (fate : Fate) (s : State) : State :=
  { s with processes := s.processes.dropLast ++ [fate] }

/-- The main thread leaves its loop. -/
def stop (s : State) : State :=
  { s with running := false, main := .joining [.input, .processing] }

end State

section Task

variable {ρ : Type} (host : Host ρ) (cfg : InterventionConfig)

def inputStep (s : State) : Option State :=
  match s.inputTask with
  | .opening => some { s with inputTask := .head }
  | .head => some { s with inputTask := if s.running then .receiving else .leaving }
  | .leaving => some { s with queue := s.queue ++ [(⟨"", ""⟩, true)], inputTask := .ended }
  | _ => none

/-- The loop over datagrams ends with an error, or with an empty datagram. -/
def receiveStep (datagram : Option Bytes) (s : State) : Option State :=
  match s.inputTask, datagram with
  | .receiving, none => some { s with inputTask := .head }
  | .receiving, some bs =>
    let s := { s with inputTask := if bs = [] then .head else .receiving }
    match decode bs with
    | none => some s
    | some icmd => some { s with queue := s.queue ++ [(icmd, false)], puts := s.puts ++ [icmd] }
  | _, _ => none

def takeStep (s : State) : Option State :=
  match s.processingTask, s.queue with
  | .loop, (icmd, kill) :: rest =>
    if kill then some { s with queue := rest, processingTask := .ended }
    else match check host cfg icmd with
      | .ok action => some { s with queue := rest, processingTask := .starting icmd action }
      | .error line =>
        some { s with queue := rest, done := s.done ++ [{ icmd := icmd }], log := s.log ++ [line] }
  | _, _ => none

/-- A start that fails in the parent is an exception. -/
def Start.spawn : Start → Spawn
  | .noPipe | .onePipe | .noFork => .failed
  | .gaveUp => .gaveUp
  | .reached => .reached

/-- The descriptors that are left open. Those to write to are closed behind the fork. -/
def Start.pipes : Start → ℕ
  | .noPipe => 0
  | .onePipe => 2
  | .noFork => 4
  | _ => 2

/-- The calls of `execv` in a child that was started. -/
def Start.executions (answer : Start) (action : InterventionAction)
    (icmd : InterventionCmd String) : List Execution :=
  if answer = .reached then [runCmd action icmd] else []

def startStep (answer : Start) (pid : ℕ) (s : State) : Option State :=
  match s.processingTask with
  | .starting icmd action =>
    let s : State := { s with
      done := s.done ++ [{ icmd := icmd, spawn := answer.spawn }], pipes := s.pipes + answer.pipes }
    if answer.spawn = .failed then some { s.throws .processing with processingTask := .ended }
    else some { s with
      processes := s.processes ++ [.watched]
      processingTask := .watching icmd action pid 0
      executions := s.executions ++ answer.executions action icmd }
  | _ => none

/-- What is logged if the process can not be killed. -/
def killLog (pid : ℕ) (moment : String) : Except String Unit → List (Level × String)
  | .ok () => []
  | .error what =>
    [(.error, "Can not kill child with pid " ++ toString pid ++ " on " ++ moment ++ ": " ++ what)]

/-- What becomes of a process that is given up. -/
def killFate : Except String Unit → Fate
  | .ok () => .killed
  | .error what => .notKilled what

def pollStep (answer : WaitAnswer) (kill : Except String Unit) (s : State) : Option State :=
  match s.processingTask with
  | .watching icmd action pid timeout =>
    match answer with
    | .error what =>
      some { s.settle (killFate kill) with
        processingTask := .reading icmd false
        log := s.log ++ [(.error, "Can not waitpid(): " ++ what)] ++
          killLog pid "waitpid error" kill }
    | .running =>
      if action.commandTimeout.toNat ≤ timeout then
        some { s.settle (killFate kill) with
          processingTask := .reading icmd false
          log := s.log ++ [(.error, actionText icmd ++ " did not exit within timeout")] ++
            killLog pid "timeout" kill }
      else some { s with processingTask := .watching icmd action pid (timeout + 1) }
    | .ended value =>
      some { s.settle .reaped with
        processingTask := .reading icmd false, log := s.log ++ [report icmd value] }
  | _ => none

/-- The end of a pipe, or an error, ends the loop over it. The descriptor is closed then. -/
def readStep (answer : ReadAnswer) (s : State) : Option State :=
  match s.processingTask, answer with
  | .reading _ _, .again => some s
  | .reading icmd fromStderr, .bytes (b :: bs) =>
    some { s with log := s.log ++ printed icmd fromStderr (b :: bs) }
  | .reading icmd fromStderr, .bytes [] =>
    some { s with
      pipes := s.pipes - 1,
      processingTask := if fromStderr then .loop else .reading icmd true }
  | .reading icmd fromStderr, .error what =>
    some { s with
      pipes := s.pipes - 1,
      processingTask := if fromStderr then .loop else .reading icmd true
      log := s.log ++ [(.error, "Can not read from child " ++
        (if fromStderr then "stderr" else "stdout") ++ " pipe: " ++ what)] }
  | _, _ => none

/-- The catch-all of a thread. A command that was about to be started is not, and a process that
was watched is left alone. -/
def State.catchAll (w : Worker) (s : State) : State :=
  match w with
  | .input => { s.throws w with inputTask := .leaving }
  | .processing => { s.throws w with
      processingTask := .ended
      done := match s.processingTask with
        | .starting icmd _ => s.done ++ [{ icmd := icmd, spawn := .failed }]
        | _ => s.done
      processes := match s.processingTask with
        | .watching .. => (s.settle .abandoned).processes
        | _ => s.processes }

def step (s : State) : Step → Option State
  | .signal => match s.main with
    | .waiting => some s.stop
    | _ => none
  | .timeout => match s.main with
    | .waiting => if s.errorStack = [] then some s else some { s.stop with errorStack := [] }
    | _ => none
  | .join => match s.main with
    | .joining (w :: ws) => if s.hasEnded w then some { s with main := .joining ws } else none
    | _ => none
  | .input => inputStep s
  | .receive datagram => receiveStep datagram s
  | .take => takeStep host cfg s
  | .start answer pid => startStep answer pid s
  | .poll answer kill => pollStep answer kill s
  | .read answer => readStep answer s
  | .fail w => if s.awake w then some (s.catchAll w) else none

abbrev run (steps : List Step) : Option State := runSteps (step host cfg) {} steps

end Task

section Steps

variable {ρ : Type} {host : Host ρ} {cfg : InterventionConfig} {s s' : State}

/-- The process was waited for to the end, or given up, with what is logged then. -/
def Fate.Settled (pid : ℕ) (lines : List (Level × String)) : Fate → Prop
  | .watched | .abandoned => False
  | .reaped | .killed => True
  | .notKilled what => ∃ moment, killLog pid moment (.error what) ⊆ lines

theorem settled_killFate (pid : ℕ) (moment : String) (kill : Except String Unit)
    (lines : List (Level × String)) :
    (killFate kill).Settled pid (lines ++ killLog pid moment kill) := by
  cases kill with
  | ok u => trivial
  | error what => exact ⟨moment, List.subset_append_right lines _⟩

/-- What a step does, by the thread and the branch it takes. -/
inductive Does (host : Host ρ) (cfg : InterventionConfig) (s : State) : Step → State → Prop where
  | stops {x : Step} (errors : List Worker) (hx : x = .signal ∨ x = .timeout)
      (hmain : s.main = .waiting) : Does host cfg s x { s.stop with errorStack := errors }
  | idles (hmain : s.main = .waiting) : Does host cfg s .timeout s
  | joins {w : Worker} {ws : List Worker} (hmain : s.main = .joining (w :: ws))
      (hended : s.hasEnded w = true) : Does host cfg s .join { s with main := .joining ws }
  | opens (hphase : s.inputTask = .opening) : Does host cfg s .input { s with inputTask := .head }
  | checks (hphase : s.inputTask = .head) :
      Does host cfg s .input { s with inputTask := if s.running then .receiving else .leaving }
  | leaves (hphase : s.inputTask = .leaving) : Does host cfg s .input
      { s with queue := s.queue ++ [(⟨"", ""⟩, true)], inputTask := .ended }
  | receives {datagram : Option Bytes} (next : InputPhase) (cmds : List (InterventionCmd String))
      (hphase : s.inputTask = .receiving) (hnext : next = .head ∨ next = .receiving) :
      Does host cfg s (.receive datagram) { s with
        inputTask := next
        queue := s.queue ++ cmds.map fun icmd => (icmd, false)
        puts := s.puts ++ cmds }
  | takesKill {icmd : InterventionCmd String} {rest : List (InterventionCmd String × Bool)}
      (hphase : s.processingTask = .loop) (hqueue : s.queue = (icmd, true) :: rest) :
      Does host cfg s .take { s with queue := rest, processingTask := .ended }
  | accepts {icmd : InterventionCmd String} {rest : List (InterventionCmd String × Bool)}
      {action : InterventionAction} (hphase : s.processingTask = .loop)
      (hqueue : s.queue = (icmd, false) :: rest) (hcheck : check host cfg icmd = .ok action) :
      Does host cfg s .take { s with queue := rest, processingTask := .starting icmd action }
  | refuses {icmd : InterventionCmd String} {rest : List (InterventionCmd String × Bool)}
      {line : Level × String} (hphase : s.processingTask = .loop)
      (hqueue : s.queue = (icmd, false) :: rest) (hcheck : check host cfg icmd = .error line) :
      Does host cfg s .take
        { s with queue := rest, done := s.done ++ [{ icmd := icmd }], log := s.log ++ [line] }
  | startsNot {icmd : InterventionCmd String} {action : InterventionAction} {answer : Start}
      {pid : ℕ} (hphase : s.processingTask = .starting icmd action)
      (hfailed : answer.spawn = .failed) :
      Does host cfg s (.start answer pid) { s.throws .processing with
        done := s.done ++ [{ icmd := icmd, spawn := .failed }]
        pipes := s.pipes + answer.pipes
        processingTask := .ended }
  | starts {icmd : InterventionCmd String} {action : InterventionAction} {answer : Start} {pid : ℕ}
      (hphase : s.processingTask = .starting icmd action) (hstarted : answer.spawn ≠ .failed) :
      Does host cfg s (.start answer pid) { s with
        done := s.done ++ [{ icmd := icmd, spawn := answer.spawn }]
        pipes := s.pipes + 2
        processes := s.processes ++ [.watched]
        processingTask := .watching icmd action pid 0
        executions := s.executions ++ answer.executions action icmd }
  | sleeps {icmd : InterventionCmd String} {action : InterventionAction} {pid timeout : ℕ}
      {kill : Except String Unit} (hphase : s.processingTask = .watching icmd action pid timeout)
      (htimeout : timeout < action.commandTimeout.toNat) : Does host cfg s (.poll .running kill)
        { s with processingTask := .watching icmd action pid (timeout + 1) }
  | settles {icmd : InterventionCmd String} {action : InterventionAction} {pid timeout : ℕ}
      {answer : WaitAnswer} {kill : Except String Unit} (fate : Fate)
      (lines : List (Level × String))
      (hphase : s.processingTask = .watching icmd action pid timeout)
      (hfate : fate.Settled pid lines) : Does host cfg s (.poll answer kill) { s.settle fate with
        processingTask := .reading icmd false, log := s.log ++ lines }
  | reads {icmd : InterventionCmd String} {fromStderr : Bool} {answer : ReadAnswer}
      (lines : List (Level × String)) (hphase : s.processingTask = .reading icmd fromStderr) :
      Does host cfg s (.read answer) { s with log := s.log ++ lines }
  | closes {icmd : InterventionCmd String} {fromStderr : Bool} {answer : ReadAnswer}
      (lines : List (Level × String)) (hphase : s.processingTask = .reading icmd fromStderr) :
      Does host cfg s (.read answer) { s with
        pipes := s.pipes - 1
        processingTask := if fromStderr then .loop else .reading icmd true
        log := s.log ++ lines }
  | fails {w : Worker} (hawake : s.awake w = true) : Does host cfg s (.fail w) (s.catchAll w)

theorem input_does (h : inputStep s = some s') : Does host cfg s .input s' := by
  rw [inputStep] at h
  split at h
  · rename_i hphase
    cases h
    exact .opens hphase
  · rename_i hphase
    cases h
    exact .checks hphase
  · rename_i hphase
    cases h
    exact .leaves hphase
  · cases h

theorem receive_does {datagram : Option Bytes} (h : receiveStep datagram s = some s') :
    Does host cfg s (.receive datagram) s' := by
  have hnothing : ∀ next, { s with
      inputTask := next, queue := s.queue ++ [].map fun icmd => (icmd, false),
      puts := s.puts ++ [] } = { s with inputTask := next } := by simp
  unfold receiveStep at h
  split at h
  · rename_i hphase
    cases h
    rw [← hnothing]
    exact .receives .head [] hphase (.inl rfl)
  · rename_i bs hphase
    have hnext : (if bs = [] then InputPhase.head else .receiving) = .head ∨
        (if bs = [] then InputPhase.head else .receiving) = .receiving := by
      split
      · exact .inl rfl
      · exact .inr rfl
    simp only at h
    split at h
    · cases h
      rw [← hnothing]
      exact .receives _ [] hphase hnext
    · rename_i icmd hdecode
      cases h
      exact .receives _ [icmd] hphase hnext
  · cases h

theorem take_does (h : takeStep host cfg s = some s') : Does host cfg s .take s' := by
  rw [takeStep] at h
  split at h
  · rename_i icmd kill rest hphase hqueue
    cases kill with
    | true =>
      cases h
      exact .takesKill hphase hqueue
    | false =>
      simp only [Bool.false_eq_true, if_false] at h
      split at h
      · rename_i action hcheck
        cases h
        exact .accepts hphase hqueue hcheck
      · rename_i line hcheck
        cases h
        exact .refuses hphase hqueue hcheck
  · cases h

theorem start_does {answer : Start} {pid : ℕ} (h : startStep answer pid s = some s') :
    Does host cfg s (.start answer pid) s' := by
  rw [startStep] at h
  split at h
  · rename_i icmd action hphase
    by_cases hfailed : answer.spawn = .failed
    · simp only [if_pos hfailed] at h
      cases h
      rw [hfailed]
      exact .startsNot hphase hfailed
    · simp only [if_neg hfailed] at h
      cases h
      have hpipes : answer.pipes = 2 := by
        cases answer with
        | noPipe => exact absurd rfl hfailed
        | onePipe => rfl
        | noFork => exact absurd rfl hfailed
        | gaveUp => rfl
        | reached => rfl
      rw [hpipes]
      exact .starts hphase hfailed
  · cases h

theorem poll_does {answer : WaitAnswer} {kill : Except String Unit}
    (h : pollStep answer kill s = some s') : Does host cfg s (.poll answer kill) s' := by
  rw [pollStep] at h
  split at h
  · rename_i icmd action pid timeout hphase
    cases answer with
    | error what =>
      cases h
      rw [List.append_assoc]
      exact .settles (killFate kill) _ hphase (settled_killFate pid _ kill _)
    | running =>
      simp only at h
      split at h
      · cases h
        rw [List.append_assoc]
        exact .settles (killFate kill) _ hphase (settled_killFate pid _ kill _)
      · rename_i htimeout
        cases h
        exact .sleeps hphase (Nat.lt_of_not_le htimeout)
    | ended value =>
      cases h
      exact .settles .reaped _ hphase trivial
  · cases h

theorem read_does {answer : ReadAnswer} (h : readStep answer s = some s') :
    Does host cfg s (.read answer) s' := by
  have hnothing : ∀ t : State, { t with log := t.log ++ [] } = t := by simp
  unfold readStep at h
  split at h
  · rename_i icmd fromStderr hphase
    cases h
    have hreads : Does host cfg s (.read .again) { s with log := s.log ++ [] } := .reads [] hphase
    rwa [hnothing] at hreads
  · rename_i icmd fromStderr b bs hphase
    cases h
    exact .reads _ hphase
  · rename_i icmd fromStderr hphase
    cases h
    rw [← List.append_nil s.log]
    exact .closes [] hphase
  · rename_i icmd fromStderr what hphase
    cases h
    exact .closes _ hphase
  · cases h

theorem does_of_step {x : Step} (h : step host cfg s x = some s') : Does host cfg s x s' := by
  cases x with
  | signal =>
    simp only [step] at h
    split at h
    · rename_i hmain
      cases h
      exact .stops s.errorStack (.inl rfl) hmain
    · cases h
  | timeout =>
    simp only [step] at h
    split at h
    · rename_i hmain
      split at h
      · cases h
        exact .idles hmain
      · cases h
        exact .stops [] (.inr rfl) hmain
    · cases h
  | join =>
    simp only [step] at h
    split at h
    · rename_i w ws hmain
      split at h
      · rename_i hended
        cases h
        exact .joins hmain hended
      · cases h
    · cases h
  | input => exact input_does h
  | receive datagram => exact receive_does h
  | take => exact take_does h
  | start answer pid => exact start_does h
  | poll answer kill => exact poll_does h
  | read answer => exact read_does h
  | fail w =>
    simp only [step] at h
    split at h
    · rename_i hawake
      cases h
      exact .fails hawake
    · cases h

end Steps

end Ctguard.InterventionThreads
