import Ctguard.OutputTask
import Ctguard.StateTask

/-!
# Collecting alerts for mails

`mail_task` takes alerts from its queue and collects those that are to be mailed. It sends
what it has collected, in one mail, when an alert is urgent, when nothing has come for a
while, or when there are many, and once more when the daemon stops. Alerts carry the
number under which they were put into the alert queue.
-/

namespace Ctguard

/-- The settings of the daemon, with those about mails. -/
structure MailConfig extends ResearchConfig where
  mail : Bool := true
  mailInterval : UInt32 := 30
  mailSampleTime : UInt32 := 1
  mailMaxSampleCount : UInt32 := 1000
  mailPriority : Priority := 4
  mailInstant : Priority := 7

/-- The alerts that are mailed. -/
def MailConfig.Mails (cfg : MailConfig) (ev : Event) : Prop :=
  cfg.mailPriority ≤ ev.priority ∨ ev.alwaysAlert = true

instance (cfg : MailConfig) (ev : Event) : Decidable (cfg.Mails ev) :=
  inferInstanceAs (Decidable (_ ∨ _))

namespace MailTask

open OutputTask (Sent)

/-- The check of `RUNNING`, the wait for an alert, the rest of the loop with what was taken,
the last mail, and the end. -/
inductive Phase where
  | head
  | waiting
  | received (x : Option (ℕ × Event))
  | leaving
  | ended
  deriving DecidableEq

/-- The queue and the task. The mails that were sent are kept. -/
structure State where
  queue : List (ℕ × Event) := []
  phase : Phase := .head
  localQueue : List (ℕ × Event) := []
  maxPriority : Priority := 0
  lastSend : ℤ := 0
  lastEvent : ℤ := 0
  sent : List (List (ℕ × Event)) := []
  log : List (LogLevel × String) := []

/-- The readings of the clock in one round of the loop, in their order. -/
structure Readings where
  event : ℤ
  interval : ℤ
  sample : ℤ
  count : ℤ
  send : ℤ

inductive Step where
  | check
  | take
  | timeout
  | round (c : Readings) (sent : Sent)
  | finish (sent : Sent)

def cannotSend (what : String) : LogLevel × String :=
  (.error, "Can not send alert mail: " ++ what)

def discarding (n : ℕ) : LogLevel × String :=
  (.warning, "Discarding " ++ toString n ++ " mail alerts at shutdown due to sending errors")

variable (cfg : MailConfig)

def accept (now : ℤ) (x : ℕ × Event) (s : State) : State :=
  if cfg.Mails x.2 then
    { s with
      maxPriority := if s.maxPriority < x.2.priority then x.2.priority else s.maxPriority
      localQueue := s.localQueue ++ [x]
      lastEvent := now }
  else s

/-- When a mail is to be sent. -/
def Due (c : Readings) (s : State) : Prop :=
  cfg.mailInstant ≤ s.maxPriority ∨
    (s.lastSend + cfg.mailInterval.toNat ≤ c.interval ∧
      s.lastEvent + cfg.mailSampleTime.toNat ≤ c.sample) ∨
    (cfg.mailMaxSampleCount.toNat ≤ s.localQueue.length ∧ s.lastSend < c.count)

instance (c : Readings) (s : State) : Decidable (Due cfg c s) :=
  inferInstanceAs (Decidable (_ ∨ _))

/-- The mail with all that was collected has been sent. -/
def State.mailed (s : State) : State :=
  { s with sent := s.sent ++ [s.localQueue], localQueue := [] }

def State.notMailed (what : String) (s : State) : State :=
  { s with log := s.log ++ [cannotSend what] }

def dispatch (c : Readings) (sent : Sent) (s : State) : State :=
  if Due cfg c s ∧ s.localQueue ≠ [] then
    let s := { s with lastSend := c.send }
    match sent with
    | .ok () => { s.mailed with maxPriority := 0 }
    | .error what => s.notMailed what
  else s

/-- What follows the loop. -/
def finish (sent : Sent) (s : State) : State :=
  let s := if s.localQueue = [] then s else
    match sent with
    | .ok () => s.mailed
    | .error what => s.notMailed what
  { s with
    phase := .ended
    log := if s.localQueue = [] then s.log else s.log ++ [discarding s.localQueue.length] }

def step (running : Bool) (s : State) : Step → Option State
  | .check =>
    match s.phase with
    | .head => some { s with phase := if running then .waiting else .leaving }
    | _ => none
  | .take =>
    match s.phase, s.queue with
    | .waiting, x :: rest => some { s with queue := rest, phase := .received (some x) }
    | _, _ => none
  | .timeout =>
    match s.phase, s.queue with
    | .waiting, [] => some { s with phase := .received none }
    | _, _ => none
  | .round c sent =>
    match s.phase with
    | .received x =>
      some { dispatch cfg c sent (x.elim s fun x => accept cfg c.event x s) with phase := .head }
    | _ => none
  | .finish sent =>
    match s.phase with
    | .leaving => some (finish sent s)
    | _ => none

section Kept

variable {cfg} {s s' : State}

/-- What was taken and is to be mailed, in mails and waiting. -/
def State.kept (s : State) : List (ℕ × Event) := s.sent.flatten ++ s.localQueue

/-- The warnings in the log. -/
def State.warnings (s : State) : List (LogLevel × String) :=
  s.log.filter (·.1 = .warning)

/-- The round with an alert that is to be mailed keeps it. -/
def Phase.kept (cfg : MailConfig) : Phase → List (ℕ × Event)
  | .received (some x) => if cfg.Mails x.2 then [x] else []
  | _ => []

/-- A send leaves the queue, what is kept and the warnings as they are. -/
structure Same (s s' : State) : Prop where
  queue : s'.queue = s.queue
  kept : s'.kept = s.kept
  warnings : s'.warnings = s.warnings

theorem same_mailed (s : State) : Same s s.mailed := ⟨rfl, by simp [State.kept, State.mailed], rfl⟩

theorem same_notMailed (what : String) (s : State) : Same s (s.notMailed what) :=
  ⟨rfl, rfl, by simp [State.warnings, State.notMailed, cannotSend]⟩

theorem same_dispatch (c : Readings) (sent : Sent) (s : State) :
    Same s (dispatch cfg c sent s) := by
  rw [dispatch]
  split
  · cases sent with
    | ok u =>
      have h := same_mailed { s with lastSend := c.send }
      exact ⟨h.queue, h.kept, h.warnings⟩
    | error what =>
      have h := same_notMailed what { s with lastSend := c.send }
      exact ⟨h.queue, h.kept, h.warnings⟩
  · exact ⟨rfl, rfl, rfl⟩

theorem kept_accept (now : ℤ) (x : ℕ × Event) (s : State) :
    (accept cfg now x s).kept = s.kept ++ (Phase.received (some x)).kept cfg := by
  rw [accept, Phase.kept]
  split
  · simp [State.kept]
  · simp

theorem queue_accept (now : ℤ) (x : ℕ × Event) (s : State) :
    (accept cfg now x s).queue = s.queue := by
  rw [accept]
  split <;> rfl

theorem warnings_accept (now : ℤ) (x : ℕ × Event) (s : State) :
    (accept cfg now x s).warnings = s.warnings := by
  rw [accept]
  split <;> rfl

/-- What a step does to the alerts, by the branch it takes. -/
inductive Does (cfg : MailConfig) (running : Bool) (s : State) : Step → State → Prop where
  | loop (hphase : s.phase = .head) (hrunning : running = true) :
      Does cfg running s .check { s with phase := .waiting }
  | leave (hphase : s.phase = .head) (hrunning : running = false) :
      Does cfg running s .check { s with phase := .leaving }
  | take {x : ℕ × Event} {rest : List (ℕ × Event)} (hphase : s.phase = .waiting)
      (hqueue : s.queue = x :: rest) :
      Does cfg running s .take { s with queue := rest, phase := .received (some x) }
  | timeout (hphase : s.phase = .waiting) (hqueue : s.queue = []) :
      Does cfg running s .timeout { s with phase := .received none }
  | round {x : Option (ℕ × Event)} {s' : State} (c : Readings) (sent : Sent)
      (hphase : s.phase = .received x) (hphase' : s'.phase = .head) (hqueue : s'.queue = s.queue)
      (hkept : s'.kept = s.kept ++ s.phase.kept cfg) (hwarnings : s'.warnings = s.warnings) :
      Does cfg running s (.round c sent) s'
  | finish {s' : State} (sent : Sent) (hphase : s.phase = .leaving) (hphase' : s'.phase = .ended)
      (hqueue : s'.queue = s.queue) (hkept : s'.kept = s.kept)
      (hwarnings : s'.warnings = s.warnings ++
        if s'.localQueue = [] then [] else [discarding s'.localQueue.length]) :
      Does cfg running s (.finish sent) s'

theorem finish_does {running : Bool} (sent : Sent) (hphase : s.phase = .leaving) :
    Does cfg running s (.finish sent) (finish sent s) := by
  have hend : ∀ u, Same s u → Does cfg running s (.finish sent) { u with
      phase := .ended
      log := if u.localQueue = [] then u.log else u.log ++ [discarding u.localQueue.length] } := by
    intro u hu
    refine .finish sent hphase rfl hu.queue hu.kept ?_
    rw [← hu.warnings]
    by_cases hempty : u.localQueue = []
    · simp [State.warnings, hempty]
    · simp [State.warnings, hempty, discarding]
  by_cases hempty : s.localQueue = []
  · have hsame := hend s ⟨rfl, rfl, rfl⟩
    simp only [finish, hempty, if_true] at hsame ⊢
    exact hsame
  · simp only [finish, hempty, if_false]
    cases sent with
    | ok u => exact hend _ (same_mailed s)
    | error what => exact hend _ (same_notMailed what s)

theorem does_of_step {running : Bool} {x : Step} (h : step cfg running s x = some s') :
    Does cfg running s x s' := by
  cases x with
  | check =>
    simp only [step] at h
    split at h
    · rename_i hphase
      obtain rfl := Option.some.inj h
      cases running with
      | true => exact .loop hphase rfl
      | false => exact .leave hphase rfl
    · cases h
  | take =>
    simp only [step] at h
    split at h
    · rename_i x rest hphase hqueue
      obtain rfl := Option.some.inj h
      exact .take hphase hqueue
    · cases h
  | timeout =>
    simp only [step] at h
    split at h
    · rename_i hphase hqueue
      obtain rfl := Option.some.inj h
      exact .timeout hphase hqueue
    · cases h
  | round c sent =>
    simp only [step] at h
    split at h
    · rename_i x hphase
      obtain rfl := Option.some.inj h
      cases x with
      | none =>
        have hsame : Same s (dispatch cfg c sent s) := same_dispatch c sent s
        refine .round c sent hphase rfl hsame.queue ?_ hsame.warnings
        have hnone : (Phase.received none).kept cfg = [] := rfl
        rw [hphase, hnone, List.append_nil]
        exact hsame.kept
      | some x =>
        have hsame : Same (accept cfg c.event x s) (dispatch cfg c sent (accept cfg c.event x s)) :=
          same_dispatch c sent _
        refine .round c sent hphase rfl (hsame.queue.trans (queue_accept _ x s)) ?_
          (hsame.warnings.trans (warnings_accept _ x s))
        rw [hphase, ← kept_accept c.event x s]
        exact hsame.kept
    · cases h
  | finish sent =>
    simp only [step] at h
    split at h
    · rename_i hphase
      obtain rfl := Option.some.inj h
      exact finish_does sent hphase
    · cases h

end Kept

end MailTask

end Ctguard
