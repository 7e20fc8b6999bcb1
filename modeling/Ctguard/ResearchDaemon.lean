import Ctguard.MailTask
import Ctguard.ProcessingTask
import Ctguard.StopMessage

/-!
# The threads of the research daemon

Six threads and the main thread share four queues, the states of the rules and the flag
`RUNNING`. A step of the system is one step of one thread: a wait, an access to a queue, or
what lies between two of them. A thread that is not blocked may end with an exception
instead. The kill message goes from `input_task` through `processing_task` to `output_task`
and `intervention_task`; `state_task` and `mail_task` look at `RUNNING`.
-/

namespace Ctguard.ResearchDaemon

inductive Worker where
  | input
  | processing
  | state
  | output
  | intervention
  | mail
  deriving DecidableEq, Repr

/-- The check of `RUNNING`, the loop over datagrams, the code behind the `try` block, and the
end. -/
inductive InputPhase where
  | head
  | receiving
  | leaving
  | ended
  deriving DecidableEq, Repr

/-- What `processing_task` puts into a queue. -/
inductive Put where
  | intervention (i : Intervention)
  | alert (e : Event)

/-- What is left to put for a message, and whether the task returns behind it. -/
inductive ProcessingPhase where
  | loop
  | putting (puts : List Put) (stop : Bool)
  | ended

/-- The check of `RUNNING`, the loop over the rules behind the given one, and the end. -/
inductive StatePhase where
  | head
  | passing (above : Option RuleId)
  | ended
  deriving DecidableEq, Repr

/-- The wait for an event, what is left to do with one, and the end. -/
inductive OutputPhase where
  | loop
  | writing (e : ℕ × Event)
  | mailing (e : ℕ × Event)
  | ended
  deriving DecidableEq

/-- What the main thread is at: it has started the threads, waits for a signal, or joins the
threads that are left. -/
inductive MainPhase where
  | starting
  | waiting
  | joining (workers : List Worker)
  deriving DecidableEq, Repr

/-- The daemon. Events are numbered in the order in which they were put into the output queue,
and all that were put are kept, as are the written events and the threads that ended with an
exception. -/
structure State where
  running : Bool := true
  main : MainPhase := .starting
  errorStack : List Worker := []
  inputQueue : List SourceEvent := []
  inputTask : InputPhase := .head
  processingTask : ProcessingPhase := .loop
  rulesState : RulesState := ∅
  stateTask : StatePhase := .head
  outputQueue : List (ℕ × Event) := []
  outputTask : OutputPhase := .loop
  interventionTask : OutputTask.State Intervention (InterventionCmd String) := {}
  mailTask : MailTask.State
  log : List (LogLevel × String) := []
  history : List (ℕ × Event) := []
  written : List (ℕ × Event) := []
  failed : List Worker := []

/-- What comes of a `recv`: an error, which may be worth a warning, an empty datagram, or one
that can be decoded or not. -/
inductive Received where
  | nothing (error : Option String)
  | empty (what : String)
  | datagram (decoded : Except String SourceEvent)

inductive Step where
  | start (now : ℤ) (hostname : String)
  | signal
  | timeout
  | join
  | input
  | receive (r : Received)
  | processing (now : ℤ)
  | state (now : ℤ)
  | output
  | intervention (x : OutputTask.Step Intervention)
  | mail (x : MailTask.Step)
  | fail (w : Worker)

/-- The message at which the tasks behind `input_task` end. -/
def killMessage : SourceEvent := { controlMessage := true, message := "!KILL" }

def isKill (se : SourceEvent) : Bool := se.controlMessage && se.message = "!KILL"

/-- An event at which `output_task` ends. -/
def Stops (e : Event) : Prop := e.controlMessage = true ∧ e.logstr = "!KILL"

instance (e : Event) : Decidable (Stops e) := inferInstanceAs (Decidable (_ ∧ _))

def killIntervention : Intervention := { name := "", argument := "", kill := true }

def startedMessage (now : ℤ) (hostname : String) : SourceEvent where
  hostname := hostname
  sourceProgram := "ctguard-research"
  sourceDomain := "daemon"
  message := "ctguard-research started"
  controlMessage := true
  timeScanned := now
  timeSend := now

namespace State

def putInput (se : SourceEvent) (s : State) : State :=
  { s with inputQueue := s.inputQueue ++ [se] }

def putAlert (e : Event) (s : State) : State :=
  { s with
    outputQueue := s.outputQueue ++ [(s.history.length, e)]
    history := s.history ++ [(s.history.length, e)] }

def putIntervention (i : Intervention) (s : State) : State :=
  let task := s.interventionTask
  { s with interventionTask := { task with
    queue := task.queue ++ [(task.puts, i)], puts := task.puts + 1 } }

def put (p : Put) (s : State) : State :=
  match p with
  | .intervention i => s.putIntervention i
  | .alert e => s.putAlert e

def warn (level : LogLevel) (message : String) (s : State) : State :=
  { s with log := s.log ++ [(level, message)] }

def hasEnded (s : State) : Worker → Bool
  | .input => s.inputTask = .ended
  | .processing => match s.processingTask with
    | .ended => true
    | _ => false
  | .state => s.stateTask = .ended
  | .output => s.outputTask = .ended
  | .intervention => s.interventionTask.phase = .ended
  | .mail => s.mailTask.phase = .ended

/-- The thread runs: it has not ended and is not blocked by an empty queue. -/
def awake (s : State) : Worker → Bool
  | .input => s.inputTask = .head ∨ s.inputTask = .receiving
  | .processing => match s.processingTask with
    | .loop => !s.inputQueue.isEmpty
    | .putting puts stop => !(puts.isEmpty && stop)
    | .ended => false
  | .state => s.stateTask ≠ .ended
  | .output => s.outputTask ≠ .ended ∧ (s.outputTask = .loop → !s.outputQueue.isEmpty)
  | .intervention => s.interventionTask.phase ≠ .ended
  | .mail => s.mailTask.phase ≠ .ended

/-- The exception is recorded. -/
def throws (w : Worker) (s : State) : State :=
  { s with errorStack := w :: s.errorStack, failed := w :: s.failed }

/-- The catch-all at the end of a task. Only `input_task` goes on behind it. -/
def catchAll (w : Worker) (s : State) : State :=
  match w with
  | .input => { s.throws w with inputTask := .leaving }
  | .processing => { s.throws w with processingTask := .ended }
  | .state => { s.throws w with stateTask := .ended }
  | .output => { s.throws w with outputTask := .ended }
  | .intervention =>
    { s.throws w with interventionTask := { s.interventionTask with phase := .ended } }
  | .mail => { s.throws w with mailTask := { s.mailTask with phase := .ended } }

end State

/-- One turn of the loop over datagrams. -/
def receive (r : Received) (s : State) : State :=
  match r with
  | .nothing error =>
    let s := { s with inputTask := .head }
    error.elim s fun what => s.warn .warning ("[iw] Recv error: " ++ what)
  | .empty what =>
    ({ s with inputTask := .head }).warn .error ("[iw] Can not decode message: " ++ what)
  | .datagram (.error what) => s.warn .error ("[iw] Can not decode message: " ++ what)
  | .datagram (.ok se) =>
    if isKill se then s.warn .warning "[iw] Ignoring external kill message" else s.putInput se

/-- The state of the first rule behind the given one. -/
def nextState (above : Option RuleId) (st : RulesState) : Option (RuleId × RuleState) :=
  st.toList.find? fun entry => above.all (· < entry.1)

section Task

variable {ρ : Type} (host : Host ρ) (cfg : MailConfig) (rules : RuleCfg ρ)

/-- The threads in the order in which they are joined. -/
def workers : List Worker :=
  [.input, .processing, .state, .output, .intervention] ++ if cfg.mail then [.mail] else []

def stopThreads (s : State) : State :=
  { s with running := false, main := .joining (workers cfg) }

/-- What `processing_task` does with a message that it has taken. -/
def process (now : ℤ) (se : SourceEvent) (s : State) : State :=
  if isKill se then
    { s with processingTask :=
      .putting [.alert (.ofSource host se), .intervention killIntervention] true }
  else
    let o := processLog host now se rules s.rulesState
    let s := { s with rulesState := o.state }
    match o.result with
    | .error _ => s.catchAll .processing
    | .ok e =>
      let h := handle cfg.toResearchConfig e
      { s with
        processingTask := .putting (h.interventions.map .intervention ++ h.alerts.map .alert) false
        log := s.log ++ h.warnings.map (.warning, ·) }

def processingStep (now : ℤ) (s : State) : Option State :=
  match s.processingTask, s.inputQueue with
  | .loop, se :: rest => some (process host cfg rules now se { s with inputQueue := rest })
  | .putting [] stop, _ => some { s with processingTask := if stop then .ended else .loop }
  | .putting (p :: ps) stop, _ => some { s.put p with processingTask := .putting ps stop }
  | _, _ => none

def stateStep (now : ℤ) (s : State) : Option State :=
  match s.stateTask with
  | .head => some { s with stateTask := if s.running then .passing none else .ended }
  | .passing above =>
    match nextState above s.rulesState with
    | none => some { s with stateTask := .head }
    | some (id, state) =>
      let polled := statePoll cfg.toResearchConfig now state
      let s := { s with
        rulesState := s.rulesState.insert id polled.1, stateTask := .passing (some id) }
      some (polled.2.elim s s.putAlert)
  | .ended => none

def outputStep (s : State) : Option State :=
  match s.outputTask, s.outputQueue with
  | .loop, e :: rest =>
    some { s with outputQueue := rest, outputTask := if Stops e.2 then .ended else .writing e }
  | .writing e, _ => some { s with
      written := s.written ++ [e], outputTask := if cfg.mail then .mailing e else .loop }
  | .mailing e, _ => some { s with
      mailTask := { s.mailTask with queue := s.mailTask.queue ++ [e] }, outputTask := .loop }
  | _, _ => none

def inputStep (s : State) : Option State :=
  match s.inputTask with
  | .head => some { s with inputTask := if s.running then .receiving else .leaving }
  | .leaving => some { s.putInput killMessage with inputTask := .ended }
  | _ => none

def joinStep (s : State) : Option State :=
  match s.main with
  | .joining (w :: ws) => if s.hasEnded w then some { s with main := .joining ws } else none
  | _ => none

def step (s : State) : Step → Option State
  | .start now hostname =>
    if s.main = .starting then
      some { s.putInput (startedMessage now hostname) with main := .waiting }
    else none
  | .signal => if s.main = .waiting then some (stopThreads cfg s) else none
  | .timeout =>
    if s.main = .waiting ∧ s.errorStack ≠ [] then some (stopThreads cfg { s with errorStack := [] })
    else none
  | .join => joinStep s
  | .input => inputStep s
  | .receive r => if s.inputTask = .receiving then some (receive r s) else none
  | .processing now => processingStep host cfg rules now s
  | .state now => stateStep cfg now s
  | .output => outputStep cfg s
  | .intervention x =>
    match x with
    | .emplace _ => none
    | x => (OutputTask.intervention.step s.interventionTask x).map fun task =>
        { s with interventionTask := task }
  | .mail x => (MailTask.step cfg s.running s.mailTask x).map fun task =>
      { s with mailTask := task }
  | .fail w => if s.awake w then some (s.catchAll w) else none

/-- The daemon before its threads have done anything. Without mails, there is no `mail_task`. -/
def initial : State := { mailTask := { phase := if cfg.mail then .head else .ended } }

abbrev run (steps : List Step) : Option State :=
  runSteps (step host cfg rules) (initial cfg) steps

end Task

section Steps

variable {ρ : Type} {host : Host ρ} {cfg : MailConfig} {rules : RuleCfg ρ} {s s' : State}

/-- What a step does, by the thread and the branch it takes. -/
inductive Does (host : Host ρ) (cfg : MailConfig) (rules : RuleCfg ρ) (s : State) :
    Step → State → Prop where
  | starts (now : ℤ) (hostname : String) (hmain : s.main = .starting) :
      Does host cfg rules s (.start now hostname)
        { s.putInput (startedMessage now hostname) with main := .waiting }
  | stops {x : Step} (errors : List Worker) (hx : x = .signal ∨ x = .timeout)
      (hmain : s.main = .waiting) :
      Does host cfg rules s x (stopThreads cfg { s with errorStack := errors })
  | joins {w : Worker} {ws : List Worker} (hmain : s.main = .joining (w :: ws))
      (hended : s.hasEnded w = true) :
      Does host cfg rules s .join { s with main := .joining ws }
  | receives {x : Step} {phase : InputPhase} {ses : List SourceEvent}
      {log : List (LogLevel × String)} (hx : x = .input ∨ ∃ r, x = .receive r)
      (hbefore : s.inputTask = .head ∨ s.inputTask = .receiving) (hphase : phase ≠ .ended)
      (hses : ∀ se ∈ ses, isKill se = false) :
      Does host cfg rules s x
        { s with inputTask := phase, inputQueue := s.inputQueue ++ ses, log := log }
  | kills (hphase : s.inputTask = .leaving) :
      Does host cfg rules s .input { s.putInput killMessage with inputTask := .ended }
  | processes {now : ℤ} {se : SourceEvent} {rest : List SourceEvent} {e : Event}
      {puts : List Put} {log : List (LogLevel × String)} (hphase : s.processingTask = .loop)
      (hqueue : s.inputQueue = se :: rest) (hkill : isKill se = false)
      (hresult : (processLog host now se rules s.rulesState).result = .ok e)
      (hputs : ∀ e', .alert e' ∈ puts → e' = e)
      (hkills : ∀ i, .intervention i ∈ puts → i.kill = false) :
      Does host cfg rules s (.processing now) { s with
        inputQueue := rest
        rulesState := (processLog host now se rules s.rulesState).state
        processingTask := .putting puts false
        log := log }
  | throws {now : ℤ} {se : SourceEvent} {rest : List SourceEvent} {f : Fault}
      (hphase : s.processingTask = .loop) (hqueue : s.inputQueue = se :: rest)
      (hkill : isKill se = false)
      (hresult : (processLog host now se rules s.rulesState).result = .error f) :
      Does host cfg rules s (.processing now) (State.catchAll .processing { s with
        inputQueue := rest
        rulesState := (processLog host now se rules s.rulesState).state })
  | forwards {now : ℤ} {se : SourceEvent} {rest : List SourceEvent}
      (hphase : s.processingTask = .loop) (hqueue : s.inputQueue = se :: rest)
      (hkill : isKill se = true) :
      Does host cfg rules s (.processing now) { s with
        inputQueue := rest
        processingTask :=
          .putting [.alert (.ofSource host se), .intervention killIntervention] true }
  | puts {now : ℤ} {p : Put} {ps : List Put} {stop : Bool}
      (hphase : s.processingTask = .putting (p :: ps) stop) :
      Does host cfg rules s (.processing now) { s.put p with processingTask := .putting ps stop }
  | next {now : ℤ} {stop : Bool} (hphase : s.processingTask = .putting [] stop) :
      Does host cfg rules s (.processing now)
        { s with processingTask := if stop then .ended else .loop }
  | loops {now : ℤ} {phase : StatePhase} (hphase : s.stateTask ≠ .ended)
      (hnext : ∀ above, s.stateTask = .passing above → nextState above s.rulesState = none)
      (hended : s.running = true → phase ≠ .ended) (hmoves : phase ≠ s.stateTask) :
      Does host cfg rules s (.state now) { s with stateTask := phase }
  | polls {now : ℤ} {above : Option RuleId} {id : RuleId} {state : RuleState}
      (hphase : s.stateTask = .passing above)
      (hnext : nextState above s.rulesState = some (id, state))
      (hpoll : (statePoll cfg.toResearchConfig now state).2 = none) :
      Does host cfg rules s (.state now) { s with
        rulesState := s.rulesState.insert id (statePoll cfg.toResearchConfig now state).1
        stateTask := .passing (some id) }
  | raises {now : ℤ} {above : Option RuleId} {id : RuleId} {state : RuleState} {e : Event}
      (hphase : s.stateTask = .passing above)
      (hnext : nextState above s.rulesState = some (id, state))
      (hpoll : (statePoll cfg.toResearchConfig now state).2 = some e) :
      Does host cfg rules s (.state now) (State.putAlert e { s with
        rulesState := s.rulesState.insert id (statePoll cfg.toResearchConfig now state).1
        stateTask := .passing (some id) })
  | takes {e : ℕ × Event} {rest : List (ℕ × Event)} (hphase : s.outputTask = .loop)
      (hqueue : s.outputQueue = e :: rest) (hstop : ¬ Stops e.2) :
      Does host cfg rules s .output { s with outputQueue := rest, outputTask := .writing e }
  | takesKill {e : ℕ × Event} {rest : List (ℕ × Event)} (hphase : s.outputTask = .loop)
      (hqueue : s.outputQueue = e :: rest) (hstop : Stops e.2) :
      Does host cfg rules s .output { s with outputQueue := rest, outputTask := .ended }
  | writes {e : ℕ × Event} (hphase : s.outputTask = .writing e) :
      Does host cfg rules s .output { s with
        written := s.written ++ [e], outputTask := if cfg.mail then .mailing e else .loop }
  | mails {e : ℕ × Event} (hphase : s.outputTask = .mailing e) :
      Does host cfg rules s .output { s with
        mailTask := { s.mailTask with queue := s.mailTask.queue ++ [e] }, outputTask := .loop }
  | intervenes {x : OutputTask.Step Intervention}
      {task : OutputTask.State Intervention (InterventionCmd String)}
      (hx : ∀ i, x ≠ .emplace i)
      (hstep : OutputTask.intervention.step s.interventionTask x = some task) :
      Does host cfg rules s (.intervention x) { s with interventionTask := task }
  | collects {x : MailTask.Step} {task : MailTask.State}
      (hstep : MailTask.step cfg s.running s.mailTask x = some task) :
      Does host cfg rules s (.mail x) { s with mailTask := task }
  | fails {w : Worker} (hawake : s.awake w = true) :
      Does host cfg rules s (.fail w) (s.catchAll w)

theorem receive_does (r : Received) (hphase : s.inputTask = .receiving) :
    Does host cfg rules s (.receive r) (receive r s) := by
  have hmoves : ∀ phase ses log, phase ≠ .ended → (∀ se ∈ ses, isKill se = false) →
      Does host cfg rules s (.receive r)
        { s with inputTask := phase, inputQueue := s.inputQueue ++ ses, log := log } :=
    fun phase ses log hne hses => .receives (.inr ⟨r, rfl⟩) (.inr hphase) hne hses
  have hquiet : ∀ phase log, phase ≠ .ended → Does host cfg rules s (.receive r)
      { s with inputTask := phase, log := log } := by
    intro phase log hne
    simpa using hmoves phase [] log hne (by simp)
  have hstays : ∀ log, Does host cfg rules s (.receive r) { s with log := log } := by
    intro log
    simpa [hphase] using hquiet s.inputTask log (by simp [hphase])
  cases r with
  | nothing error =>
    cases error with
    | none => exact hquiet .head s.log (by simp)
    | some what => exact hquiet .head _ (by simp)
  | empty what => exact hquiet .head _ (by simp)
  | datagram decoded =>
    cases decoded with
    | error what => exact hstays _
    | ok se =>
      rw [receive]
      split
      · exact hstays _
      · rename_i hkill
        have hput := hmoves s.inputTask [se] s.log (by simp [hphase]) (by simpa using hkill)
        exact hput

theorem process_does {now : ℤ} {se : SourceEvent} {rest : List SourceEvent}
    (hphase : s.processingTask = .loop) (hqueue : s.inputQueue = se :: rest) :
    Does host cfg rules s (.processing now)
      (process host cfg rules now se { s with inputQueue := rest }) := by
  cases hkill : isKill se with
  | true =>
    simp only [process, hkill, if_true]
    exact .forwards hphase hqueue hkill
  | false =>
    simp only [process, hkill, Bool.false_eq_true, if_false]
    cases hresult : (processLog host now se rules s.rulesState).result with
    | error f => exact .throws hphase hqueue hkill hresult
    | ok e =>
      refine .processes hphase hqueue hkill hresult ?_ ?_
      · intro e' he'
        rw [handle] at he'
        split at he'
        · simpa using he'
        · simp at he'
      · intro i hi
        rw [handle] at hi
        split at hi
        · have hrequested : i ∈ requested e := by simpa using hi
          obtain ⟨r, -, hr⟩ := List.mem_filterMap.mp hrequested
          obtain ⟨argument, -, rfl⟩ := Option.map_eq_some_iff.mp hr
          rfl
        · simp at hi

theorem input_does (h : inputStep s = some s') : Does host cfg rules s .input s' := by
  rw [inputStep] at h
  split at h
  · rename_i hphase
    obtain rfl := Option.some.inj h
    have hne : (if s.running then InputPhase.receiving else .leaving) ≠ .ended := by
      split <;> simp
    have hmoves : Does host cfg rules s .input { s with
        inputTask := if s.running then .receiving else .leaving
        inputQueue := s.inputQueue ++ [], log := s.log } :=
      .receives (.inl rfl) (.inl hphase) hne (by simp)
    simpa using hmoves
  · rename_i hphase
    obtain rfl := Option.some.inj h
    exact .kills hphase
  · cases h

theorem processing_does {now : ℤ} (h : processingStep host cfg rules now s = some s') :
    Does host cfg rules s (.processing now) s' := by
  rw [processingStep] at h
  split at h
  · rename_i se rest hphase hqueue
    obtain rfl := Option.some.inj h
    exact process_does hphase hqueue
  · rename_i stop hphase
    obtain rfl := Option.some.inj h
    exact .next hphase
  · rename_i p ps stop hphase
    obtain rfl := Option.some.inj h
    exact .puts hphase
  · cases h

theorem state_does {now : ℤ} (h : stateStep cfg now s = some s') :
    Does host cfg rules s (.state now) s' := by
  rw [stateStep] at h
  split at h
  · rename_i hphase
    obtain rfl := Option.some.inj h
    refine .loops (by simp [hphase]) (by simp [hphase]) ?_ ?_
    · intro hrunning
      simp [hrunning]
    · rw [hphase]
      split <;> simp
  · rename_i above hphase
    split at h
    · rename_i hnext
      obtain rfl := Option.some.inj h
      refine .loops (by simp [hphase]) ?_ (by simp) (by simp [hphase])
      intro above' habove
      rw [hphase, StatePhase.passing.injEq] at habove
      exact habove ▸ hnext
    · rename_i id state hnext
      cases hpoll : (statePoll cfg.toResearchConfig now state).2 with
      | none =>
        simp only [hpoll, Option.elim_none, Option.some.injEq] at h
        exact h ▸ .polls hphase hnext hpoll
      | some e =>
        simp only [hpoll, Option.elim_some, Option.some.injEq] at h
        exact h ▸ .raises hphase hnext hpoll
  · cases h

theorem output_does (h : outputStep cfg s = some s') : Does host cfg rules s .output s' := by
  rw [outputStep] at h
  split at h
  · rename_i e rest hphase hqueue
    obtain rfl := Option.some.inj h
    by_cases hstop : Stops e.2
    · rw [if_pos hstop]
      exact .takesKill hphase hqueue hstop
    · rw [if_neg hstop]
      exact .takes hphase hqueue hstop
  · rename_i e hphase
    obtain rfl := Option.some.inj h
    exact .writes hphase
  · rename_i e hphase
    obtain rfl := Option.some.inj h
    exact .mails hphase
  · cases h

theorem main_does {x : Step} (hx : x = .signal ∨ x = .timeout ∨ x = .join ∨
      ∃ now hostname, x = .start now hostname) (h : step host cfg rules s x = some s') :
    Does host cfg rules s x s' := by
  rcases hx with rfl | rfl | rfl | ⟨now, hostname, rfl⟩
  · simp only [step, Option.ite_none_right_eq_some, Option.some.injEq] at h
    obtain ⟨hmain, rfl⟩ := h
    exact .stops s.errorStack (.inl rfl) hmain
  · simp only [step, Option.ite_none_right_eq_some, Option.some.injEq] at h
    obtain ⟨⟨hmain, -⟩, rfl⟩ := h
    exact .stops [] (.inr rfl) hmain
  · simp only [step, joinStep] at h
    split at h
    · rename_i w ws hmain
      simp only [Option.ite_none_right_eq_some, Option.some.injEq] at h
      obtain ⟨hended, rfl⟩ := h
      exact .joins hmain hended
    · cases h
  · simp only [step, Option.ite_none_right_eq_some, Option.some.injEq] at h
    obtain ⟨hmain, rfl⟩ := h
    exact .starts now hostname hmain

theorem does_of_step {x : Step} (h : step host cfg rules s x = some s') :
    Does host cfg rules s x s' := by
  cases x with
  | start now hostname => exact main_does (by simp) h
  | signal => exact main_does (by simp) h
  | timeout => exact main_does (by simp) h
  | join => exact main_does (by simp) h
  | input => exact input_does h
  | receive r =>
    simp only [step, Option.ite_none_right_eq_some, Option.some.injEq] at h
    obtain ⟨hphase, rfl⟩ := h
    exact receive_does r hphase
  | processing now => exact processing_does h
  | state now => exact state_does h
  | output => exact output_does h
  | intervention x =>
    cases x with
    | emplace i => cases h
    | take _ | timeout | resend _ =>
      simp only [step, Option.map_eq_some_iff] at h
      obtain ⟨task, hstep, rfl⟩ := h
      exact .intervenes (by simp) hstep
  | mail x =>
    simp only [step, Option.map_eq_some_iff] at h
    obtain ⟨task, hstep, rfl⟩ := h
    exact .collects hstep
  | fail w =>
    simp only [step, Option.ite_none_right_eq_some, Option.some.injEq] at h
    obtain ⟨hawake, rfl⟩ := h
    exact .fails hawake

end Steps

end Ctguard.ResearchDaemon
