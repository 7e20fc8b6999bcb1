import Ctguard.NormalReturn
import Ctguard.ResearchShutdown

/-!
# Whether the research daemon gets stuck while stopping

When `RUNNING` is false, the threads that look at it return, and `input_task` sends the kill
message. The other threads return if it reaches them: `processing_task` forwards it, unless an
exception ends that thread before. Then `output_task` and `intervention_task` wait for a
message that nobody will send.
-/

namespace Ctguard.ResearchDaemon

variable {ρ : Type} {host : Host ρ} {cfg : MailConfig} {rules : RuleCfg ρ} {s s' : State}
  {steps : List Step} {w : Worker}

/-- No thread can take a step any more that changes anything, but end with an exception. A thread
that an empty queue blocks can not do that either. -/
def Quiescent (host : Host ρ) (cfg : MailConfig) (rules : RuleCfg ρ) (s : State) : Prop :=
  ∀ x s', (∀ w, x ≠ .fail w) → step host cfg rules s x = some s' → s' = s

def AllReturned (cfg : MailConfig) (s : State) : Prop :=
  ∀ w ∈ workers cfg, s.hasEnded w = true

section Exceptions

/-- A step ends a thread with an exception: one that may come at any time, or one that
`process_log` throws. -/
def Throws (host : Host ρ) (rules : RuleCfg ρ) (w : Worker) (s : State) : Step → Prop
  | .fail w' => w' = w
  | .processing now => w = .processing ∧ s.processingTask = .loop ∧ ∃ se rest f,
      s.inputQueue = se :: rest ∧ isKill se = false ∧
        (processLog host now se rules s.rulesState).result = .error f
  | _ => False

/-- A step of a run ends the thread with an exception. -/
def Fails (host : Host ρ) (cfg : MailConfig) (rules : RuleCfg ρ) (w : Worker)
    (steps : List Step) : Prop :=
  ∃ pre x post t, steps = pre ++ x :: post ∧ run host cfg rules pre = some t ∧
    Throws host rules w t x

theorem not_throws_of_phase {now : ℤ} (h : s.processingTask ≠ .loop) :
    ¬ Throws host rules w s (.processing now) :=
  fun hthrows => h hthrows.2.1

theorem failed_step {x : Step} (hstep : step host cfg rules s x = some s') :
    w ∉ s'.failed ↔ w ∉ s.failed ∧ ¬ Throws host rules w s x := by
  cases does_of_step hstep with
  | stops errors hx hmain =>
    rcases hx with rfl | rfl <;> exact (and_iff_left id).symm
  | receives hx hbefore hphase hses =>
    rcases hx with rfl | ⟨r, rfl⟩ <;> exact (and_iff_left id).symm
  | @processes now se rest e puts log hphase hqueue hkill hresult hputs hkills =>
    refine (and_iff_left ?_).symm
    rintro ⟨-, -, se', rest', f, hqueue', -, herror⟩
    rw [hqueue] at hqueue'
    obtain ⟨rfl, -⟩ := List.cons.inj hqueue'
    simp [hresult] at herror
  | @throws now se rest f hphase hqueue hkill hresult =>
    have hthrows : Throws host rules w s (.processing now) ↔ w = .processing :=
      ⟨And.left, fun hw => ⟨hw, hphase, se, rest, f, hqueue, hkill, hresult⟩⟩
    rw [hthrows]
    simp [State.catchAll, State.throws, and_comm]
  | @forwards now se rest hphase hqueue hkill =>
    refine (and_iff_left ?_).symm
    rintro ⟨-, -, se', rest', f, hqueue', hkill', -⟩
    rw [hqueue] at hqueue'
    obtain ⟨rfl, -⟩ := List.cons.inj hqueue'
    simp [hkill] at hkill'
  | @puts now p ps stop hphase =>
    have hnot : ¬ Throws host rules w s (.processing now) := not_throws_of_phase (by simp [hphase])
    cases p <;> exact (and_iff_left hnot).symm
  | @next now stop hphase =>
    exact (and_iff_left (not_throws_of_phase (by simp [hphase]))).symm
  | @fails w' hawake =>
    have hthrows : Throws host rules w s (.fail w') ↔ w = w' := eq_comm
    rw [hthrows]
    cases w' <;> simp [State.catchAll, State.throws, and_comm]
  | _ => exact (and_iff_left id).symm

theorem mem_failed_iff (h : run host cfg rules steps = some s) :
    w ∈ s.failed ↔ Fails host cfg rules w steps := by
  have hiff : w ∉ s.failed ↔
      StepsMeet (step host cfg rules) (fun t x => ¬ Throws host rules w t x) (initial cfg) steps :=
    stepsMeet_iff (I := fun _ => True) (fun _ _ => trivial) (fun _ hx => failed_step hx) trivial
      (by simp [initial]) h
  rw [← not_iff_not, hiff]
  constructor
  · rintro hmeet ⟨pre, x, post, t, heq, ht, hthrows⟩
    exact hmeet pre x post t heq ht hthrows
  · intro hnot pre x post t heq ht hthrows
    exact hnot ⟨pre, x, post, t, heq, ht, hthrows⟩

/-- An exception ends a thread, but for `input_task`, which goes on behind it. -/
theorem hasEnded_of_throws {x : Step} (hthrows : Throws host rules w s x) (hne : w ≠ .input)
    (hstep : step host cfg rules s x = some s') : s'.hasEnded w = true := by
  cases x with
  | fail w' =>
    obtain rfl : w' = w := hthrows
    simp only [step, Option.ite_none_right_eq_some, Option.some.injEq] at hstep
    obtain ⟨-, rfl⟩ := hstep
    cases w' with
    | input => exact absurd rfl hne
    | _ => rfl
  | processing now =>
    obtain ⟨rfl, hphase, se, rest, f, hqueue, hkill, hresult⟩ := hthrows
    simp only [step, processingStep, hphase, hqueue, process, hkill, hresult, Bool.false_eq_true,
      if_false, Option.some.injEq] at hstep
    exact hstep ▸ rfl
  | _ => exact hthrows.elim

/-- The threads that an exception has ended have ended. -/
def FailedEnd (s : State) : Prop := ∀ w, w ≠ .input → w ∈ s.failed → s.hasEnded w = true

theorem FailedEnd.step (h : FailedEnd s) {x : Step} (hstep : step host cfg rules s x = some s') :
    FailedEnd s' := by
  intro w hne hw
  by_cases hmem : w ∈ s.failed
  · exact hasEnded_step (h w hne hmem) hstep
  · have hthrows : Throws host rules w s x := by
      by_contra hnot
      exact (failed_step hstep).mpr ⟨hmem, hnot⟩ hw
    exact hasEnded_of_throws hthrows hne hstep

end Exceptions

section KillMessages

/-- `processing_task` has taken the kill message or ended. -/
def ProcessingPhase.stopped : ProcessingPhase → Bool
  | .putting _ stop => stop
  | .ended => true
  | .loop => false

/-- `processing_task` forwards the kill message and has put it into the output queue. -/
def ProcessingPhase.toldOutput : ProcessingPhase → Prop
  | .putting puts true => ∀ e, .alert e ∉ puts
  | _ => False

/-- What `processing_task` puts at the kill message. -/
def forwarded (host : Host ρ) : List Put :=
  [.alert (.ofSource host killMessage), .intervention killIntervention]

/-- What `processing_task` has still to put. -/
structure PutInv (host : Host ρ) (phase : ProcessingPhase) : Prop where
  stop : ∀ puts, phase = .putting puts true → puts <:+ forwarded host
  alerts : ∀ puts e, phase = .putting puts false → .alert e ∈ puts → ¬ Stops e
  kills : ∀ puts i, phase = .putting puts false → .intervention i ∈ puts → i.kill = false

theorem putInv_of_idle {phase : ProcessingPhase} (h : ∀ puts stop, phase ≠ .putting puts stop) :
    PutInv host phase :=
  ⟨fun puts heq => absurd heq (h puts true), fun puts _ heq => absurd heq (h puts false),
    fun puts _ heq => absurd heq (h puts false)⟩

theorem PutInv.step (hkill : KillInv host s) (h : PutInv host s.processingTask) {x : Step}
    (hstep : step host cfg rules s x = some s') : PutInv host s'.processingTask := by
  cases does_of_step hstep with
  | @processes now se rest e puts log hphase hqueue hnokill hresult hputs hkills =>
    refine ⟨fun puts' heq => by simp at heq, fun puts' e' heq he' => ?_, fun puts' i heq hi => ?_⟩
    · obtain ⟨rfl, -⟩ := ProcessingPhase.putting.inj heq
      rw [hputs e' he']
      exact not_stops_of_processLog hnokill hresult
    · obtain ⟨rfl, -⟩ := ProcessingPhase.putting.inj heq
      exact hkills i hi
  | throws => exact putInv_of_idle (by simp [State.catchAll])
  | @forwards now se rest hphase hqueue hkill' =>
    have hse : se = killMessage := hkill.input se (by simp [hqueue]) hkill'
    refine ⟨fun puts heq => ?_, by simp, by simp⟩
    obtain ⟨rfl, -⟩ := ProcessingPhase.putting.inj heq
    rw [hse]
    exact List.suffix_refl _
  | @puts now p ps stop hphase =>
    refine ⟨fun puts heq => ?_, fun puts e heq he => ?_, fun puts i heq hi => ?_⟩
    · obtain ⟨rfl, rfl⟩ := ProcessingPhase.putting.inj heq
      exact (List.suffix_cons p ps).trans (h.stop (p :: ps) hphase)
    · obtain ⟨rfl, rfl⟩ := ProcessingPhase.putting.inj heq
      exact h.alerts (p :: ps) e hphase (List.mem_cons_of_mem _ he)
    · obtain ⟨rfl, rfl⟩ := ProcessingPhase.putting.inj heq
      exact h.kills (p :: ps) i hphase (List.mem_cons_of_mem _ hi)
  | @next now stop hphase => exact putInv_of_idle (by cases stop <;> simp)
  | @fails w hawake =>
    cases w with
    | processing => exact putInv_of_idle (by simp [State.catchAll])
    | _ => exact h
  | _ => exact h

/-- The kill message waits for `processing_task` once `input_task` has ended. -/
def InputInv (input : InputPhase) (phase : ProcessingPhase) (queue : List SourceEvent) : Prop :=
  input = .ended → phase.stopped = false → ∃ se ∈ queue, isKill se = true

theorem InputInv.put {input : InputPhase} {phase : ProcessingPhase} {queue : List SourceEvent}
    (h : InputInv input phase queue) (ses : List SourceEvent) :
    InputInv input phase (queue ++ ses) := by
  intro hinput hphase
  obtain ⟨se, hse, hkill⟩ := h hinput hphase
  exact ⟨se, List.mem_append_left _ hse, hkill⟩

theorem InputInv.step (h : InputInv s.inputTask s.processingTask s.inputQueue) {x : Step}
    (hstep : step host cfg rules s x = some s') :
    InputInv s'.inputTask s'.processingTask s'.inputQueue := by
  cases does_of_step hstep with
  | starts now hostname hmain => exact h.put _
  | receives hx hbefore hphase hses => exact fun hended => absurd hended hphase
  | kills hphase => exact fun _ _ => ⟨killMessage, by simp [State.putInput], rfl⟩
  | @processes now se rest e puts log hphase hqueue hkill hresult hputs hkills =>
    intro hinput hstopped
    obtain ⟨se', hse', hkill'⟩ := h hinput (by rw [hphase]; rfl)
    rw [hqueue] at hse'
    rcases List.mem_cons.mp hse' with rfl | hse'
    · simp [hkill] at hkill'
    · exact ⟨se', hse', hkill'⟩
  | throws => exact fun _ hstopped => absurd hstopped (by simp [State.catchAll, ProcessingPhase.stopped])
  | forwards => exact fun _ hstopped => absurd hstopped (by simp [ProcessingPhase.stopped])
  | @puts now p ps stop hphase =>
    rw [hphase] at h
    cases p <;> exact h
  | @next now stop hphase =>
    rw [hphase] at h
    cases stop <;> exact h
  | @fails w hawake =>
    cases w with
    | input => exact fun hended => absurd hended (by simp [State.catchAll])
    | processing => exact fun _ hstopped => absurd hstopped (by simp [State.catchAll, ProcessingPhase.stopped])
    | _ => exact h
  | _ => exact h

/-- The kill message was put into the output queue. -/
def Sent (history : List (ℕ × Event)) : Prop := ∃ e ∈ history, Stop e

theorem sent_put {history : List (ℕ × Event)} {n : ℕ} {e : Event} :
    Sent (history ++ [(n, e)]) ↔ Sent history ∨ Stops e := by
  simp only [Sent, List.mem_append, List.mem_singleton, or_and_right, exists_or, exists_eq_left]
  exact Iff.rfl

/-- `processing_task` knows whether it has put the kill message into the output queue. -/
structure ToldInv (phase : ProcessingPhase) (history : List (ℕ × Event)) (failed : List Worker) :
    Prop where
  told : phase ≠ .ended → (Sent history ↔ phase.toldOutput)
  sent : phase = .ended → .processing ∉ failed → Sent history

theorem toldInv_of_failed {phase : ProcessingPhase} {history : List (ℕ × Event)}
    {failed : List Worker} (hphase : phase = .ended) (hfailed : .processing ∈ failed) :
    ToldInv phase history failed :=
  ⟨fun hne => absurd hphase hne, fun _ hnot => absurd hfailed hnot⟩

theorem ToldInv.congr {phase : ProcessingPhase} {history history' : List (ℕ × Event)}
    {failed failed' : List Worker} (h : ToldInv phase history failed)
    (hsent : Sent history' ↔ Sent history)
    (hfailed : .processing ∉ failed' → .processing ∉ failed) : ToldInv phase history' failed' :=
  ⟨fun hne => hsent.trans (h.told hne),
    fun hphase hnot => hsent.mpr (h.sent hphase (hfailed hnot))⟩

/-- What is forwarded at the kill message, message by message. -/
theorem suffix_forwarded {p : Put} {ps : List Put} (h : p :: ps <:+ forwarded host) :
    (p = .alert (.ofSource host killMessage) ∧ ps = [.intervention killIntervention]) ∨
      (p = .intervention killIntervention ∧ ps = []) := by
  obtain ⟨before, heq⟩ := h
  cases before with
  | nil =>
    obtain ⟨rfl, rfl⟩ := List.cons.inj heq
    exact .inl ⟨rfl, rfl⟩
  | cons b before =>
    obtain ⟨-, heq⟩ := List.cons.inj heq
    cases before with
    | nil =>
      obtain ⟨rfl, rfl⟩ := List.cons.inj heq
      exact .inr ⟨rfl, rfl⟩
    | cons b' before =>
      obtain ⟨-, heq⟩ := List.cons.inj heq
      simp at heq

theorem ToldInv.step (hkill : KillInv host s) (hput : PutInv host s.processingTask)
    (h : ToldInv s.processingTask s.history s.failed) {x : Step}
    (hstep : step host cfg rules s x = some s') :
    ToldInv s'.processingTask s'.history s'.failed := by
  have hfresh : ∀ {phase : ProcessingPhase}, s.processingTask = .loop → phase ≠ .ended →
      ¬ phase.toldOutput → ToldInv phase s.history s.failed := by
    intro phase hphase hne htold
    have hnone := h.told (by simp [hphase])
    rw [hphase] at hnone
    exact ⟨fun _ => iff_of_false (fun hsent => hnone.mp hsent) htold, fun heq => absurd heq hne⟩
  cases does_of_step hstep with
  | processes hphase => exact hfresh hphase (by simp) id
  | forwards hphase =>
    refine hfresh hphase (by simp) fun htold => ?_
    exact htold _ List.mem_cons_self
  | throws => exact toldInv_of_failed rfl List.mem_cons_self
  | @puts now p ps stop hphase =>
    have htold := h.told (by simp [hphase])
    rw [hphase] at htold
    cases stop with
    | false =>
      cases p with
      | intervention i => exact ⟨fun _ => htold, by simp⟩
      | alert e =>
        have hnot := hput.alerts _ e hphase List.mem_cons_self
        exact ⟨fun _ => sent_put.trans ((or_iff_left hnot).trans htold), by simp⟩
    | true =>
      rcases suffix_forwarded (hput.stop _ hphase) with ⟨rfl, rfl⟩ | ⟨rfl, rfl⟩
      · have hstops : Stops (.ofSource host killMessage) := ⟨rfl, rfl⟩
        have hnext : ProcessingPhase.toldOutput (.putting [.intervention killIntervention] true) := by
          intro e he
          simp at he
        exact ⟨fun _ => iff_of_true (sent_put.mpr (.inr hstops)) hnext, by simp⟩
      · have hnow : ProcessingPhase.toldOutput (.putting [.intervention killIntervention] true) := by
          intro e he
          simp at he
        have hnext : ProcessingPhase.toldOutput (.putting [] true) := by
          intro e he
          simp at he
        exact ⟨fun _ => iff_of_true (htold.mpr hnow) hnext, by simp⟩
  | @next now stop hphase =>
    have htold := h.told (by simp [hphase])
    rw [hphase] at htold
    cases stop with
    | false => exact ⟨fun _ => htold, by simp⟩
    | true =>
      have hnow : ProcessingPhase.toldOutput (.putting [] true) := by
        intro e he
        simp at he
      exact ⟨by simp, fun _ _ => htold.mpr hnow⟩
  | raises hphase hnext hpoll =>
    have hnot := not_stops_of_poll hkill.rules hnext hpoll
    exact h.congr (sent_put.trans (or_iff_left hnot)) id
  | @fails w hawake =>
    cases w with
    | processing => exact toldInv_of_failed rfl List.mem_cons_self
    | _ => exact h.congr Iff.rfl fun hnot hmem => hnot (List.mem_cons_of_mem _ hmem)
  | _ => exact h

/-- The kill message waits for `output_task` if it was sent. -/
structure WaitInv (output : OutputPhase) (queue history : List (ℕ × Event))
    (failed : List Worker) : Prop where
  waits : output ≠ .ended → Sent history → ∃ e ∈ queue, Stop e
  ended : output = .ended → Sent history ∨ .output ∈ failed

theorem WaitInv.put {output : OutputPhase} {queue history : List (ℕ × Event)}
    {failed : List Worker} (h : WaitInv output queue history failed) (n : ℕ) (e : Event) :
    WaitInv output (queue ++ [(n, e)]) (history ++ [(n, e)]) failed := by
  refine ⟨fun hne hsent => ?_, fun hended => (h.ended hended).imp_left fun hsent => sent_put.mpr (.inl hsent)⟩
  rcases sent_put.mp hsent with hsent | hstop
  · obtain ⟨x, hx, hstop⟩ := h.waits hne hsent
    exact ⟨x, List.mem_append_left _ hx, hstop⟩
  · exact ⟨(n, e), by simp, hstop⟩

theorem WaitInv.move {output output' : OutputPhase} {queue history : List (ℕ × Event)}
    {failed : List Worker} (h : WaitInv output queue history failed) (hne : output ≠ .ended)
    (hne' : output' ≠ .ended) : WaitInv output' queue history failed :=
  ⟨fun _ => h.waits hne, fun hended => absurd hended hne'⟩

theorem WaitInv.step (hinv : AlertInv s.history s.written s.outputTask s.outputQueue)
    (h : WaitInv s.outputTask s.outputQueue s.history s.failed) {x : Step}
    (hstep : step host cfg rules s x = some s') :
    WaitInv s'.outputTask s'.outputQueue s'.history s'.failed := by
  have hmore : ∀ w, WaitInv s.outputTask s.outputQueue s.history (w :: s.failed) :=
    fun w => ⟨h.waits, fun hended => (h.ended hended).imp_right (List.mem_cons_of_mem _)⟩
  cases does_of_step hstep with
  | throws => exact hmore .processing
  | @puts now p ps stop hphase =>
    cases p with
    | intervention i => exact h
    | alert e => exact h.put _ e
  | @raises now above id state e hphase hnext hpoll => exact h.put _ e
  | @takes e rest hphase hqueue hstop =>
    refine ⟨fun _ hsent => ?_, by simp⟩
    obtain ⟨x, hx, hstop'⟩ := h.waits (by simp [hphase]) hsent
    rw [hqueue] at hx
    rcases List.mem_cons.mp hx with rfl | hx
    · exact absurd hstop' hstop
    · exact ⟨x, hx, hstop'⟩
  | @takesKill e rest hphase hqueue hstop =>
    have hmem : e ∈ s.history := hinv.subset (by simp [hqueue])
    exact ⟨by simp, fun _ => .inl ⟨e, hmem, hstop⟩⟩
  | @writes e hphase => exact h.move (by simp [hphase]) (by split <;> simp)
  | @mails e hphase => exact h.move (by simp [hphase]) (by simp)
  | @fails w hawake =>
    cases w with
    | output => exact ⟨by simp [State.catchAll], fun _ => .inr List.mem_cons_self⟩
    | _ => exact hmore _
  | _ => exact h

/-- `processing_task` has put the kill message into the queue of interventions, and is about to
return or has returned. -/
def Told (phase : ProcessingPhase) (failed : List Worker) : Prop :=
  phase = .putting [] true ∨ (phase = .ended ∧ .processing ∉ failed)

/-- A kill message among the interventions. -/
abbrev InterventionKill (queue : List (ℕ × Intervention)) : Prop :=
  OutputTask.KillWaits OutputTask.intervention queue

/-- The kill message waits for `intervention_task` if it was sent, and that task stops at nothing
else. -/
structure InterventionInv (phase : ProcessingPhase) (failed : List Worker)
    (task : OutputTask.State Intervention (InterventionCmd String)) : Prop where
  busy : task.Busy
  waits : task.phase.reads = true → Told phase failed → InterventionKill task.queue
  told : InterventionKill task.queue ∨ (task.phase.reads = false ∧ .intervention ∉ failed) →
    Told phase failed

theorem interventionKill_put {queue : List (ℕ × Intervention)} {n : ℕ} {i : Intervention} :
    InterventionKill (queue ++ [(n, i)]) ↔ InterventionKill queue ∨ i.kill = true := by
  simp only [InterventionKill, OutputTask.KillWaits, List.mem_append, List.mem_singleton,
    or_and_right, exists_or, exists_eq_left]
  exact Iff.rfl

theorem InterventionInv.congr {phase phase' : ProcessingPhase} {failed failed' : List Worker}
    {task : OutputTask.State Intervention (InterventionCmd String)}
    (h : InterventionInv phase failed task) (htold : Told phase' failed' ↔ Told phase failed)
    (hfailed : .intervention ∉ failed' → .intervention ∉ failed) :
    InterventionInv phase' failed' task :=
  ⟨h.busy, fun hreads htold' => h.waits hreads (htold.mp htold'),
    fun hor => htold.mpr (h.told (hor.imp_right fun ⟨hreads, hnot⟩ => ⟨hreads, hfailed hnot⟩))⟩

/-- `processing_task` goes on, and has not put the kill message into the queue. -/
theorem InterventionInv.untold {phase phase' : ProcessingPhase} {failed failed' : List Worker}
    {task : OutputTask.State Intervention (InterventionCmd String)}
    (h : InterventionInv phase failed task) (hnot : ¬ Told phase failed)
    (hnot' : ¬ Told phase' failed') (hfailed : .intervention ∉ failed' → .intervention ∉ failed) :
    InterventionInv phase' failed' task :=
  h.congr (iff_of_false hnot' hnot) hfailed

theorem InterventionInv.step (hfailed : FailedEnd s) (hput : PutInv host s.processingTask)
    (h : InterventionInv s.processingTask s.failed s.interventionTask) {x : Step}
    (hstep : step host cfg rules s x = some s') :
    InterventionInv s'.processingTask s'.failed s'.interventionTask := by
  cases does_of_step hstep with
  | processes hphase => exact h.untold (by simp [Told, hphase]) (by simp [Told]) id
  | forwards hphase => exact h.untold (by simp [Told, hphase]) (by simp [Told]) id
  | throws hphase =>
    refine h.untold (by simp [Told, hphase]) (by simp [Told, State.catchAll, State.throws]) ?_
    exact fun hnot hmem => hnot (List.mem_cons_of_mem _ hmem)
  | @puts now p ps stop hphase =>
    have hnot : ¬ Told s.processingTask s.failed := by simp [Told, hphase]
    cases stop with
    | false =>
      cases p with
      | alert e => exact h.untold hnot (by simp [Told, State.put]) id
      | intervention i =>
        have hkill := hput.kills _ i hphase List.mem_cons_self
        have hnot' : ¬ Told (.putting ps false) s.failed := by simp [Told]
        refine ⟨h.busy, fun _ htold => absurd htold hnot', fun hor => ?_⟩
        refine absurd (h.told (hor.imp_left fun hqueue => ?_)) hnot
        exact (or_iff_left (by simp [hkill])).mp (interventionKill_put.mp hqueue)
    | true =>
      rcases suffix_forwarded (hput.stop _ hphase) with ⟨rfl, rfl⟩ | ⟨rfl, rfl⟩
      · exact h.untold hnot (by simp [Told, State.put]) id
      · exact ⟨h.busy, fun _ _ => interventionKill_put.mpr (.inr rfl), fun _ => .inl rfl⟩
  | @next now stop hphase =>
    cases stop with
    | false => exact h.untold (by simp [Told, hphase]) (by simp [Told]) id
    | true =>
      have hnot : .processing ∉ s.failed := by
        intro hmem
        have hended := hfailed .processing (by simp) hmem
        simp [State.hasEnded, hphase] at hended
      exact h.congr (iff_of_true (.inr ⟨rfl, hnot⟩) (.inl hphase)) id
  | @raises now above id state e hphase hnext hpoll => exact h
  | @intervenes x task hx hstep' =>
    rcases OutputTask.reads_step hx hstep' with ⟨hreads, hqueue⟩ | ⟨hreads, hqueue⟩
    · refine ⟨OutputTask.busy_step h.busy hstep', ?_, ?_⟩
      · exact fun hreads' htold => hqueue.mpr (h.waits (hreads ▸ hreads') htold)
      · exact fun hor => h.told (hor.imp hqueue.mp fun hended => ⟨hreads ▸ hended.1, hended.2⟩)
    · refine ⟨OutputTask.busy_step h.busy hstep', fun hreads' => ?_, fun _ => h.told (.inl hqueue)⟩
      simp [hreads] at hreads'
  | @fails w hawake =>
    cases w with
    | processing =>
      have hnot : ¬ Told s.processingTask s.failed := by
        rintro (hphase | ⟨hphase, -⟩)
        · simp [State.awake, hphase] at hawake
        · simp [State.awake, hphase] at hawake
      refine h.untold hnot (by simp [Told, State.catchAll, State.throws]) ?_
      exact fun hnot hmem => hnot (List.mem_cons_of_mem _ hmem)
    | intervention =>
      refine ⟨fun hphase => ?_, fun hreads => ?_, fun hor => ?_⟩
      · simp [State.catchAll] at hphase
      · simp [State.catchAll, OutputTask.Phase.reads] at hreads
      · have hkill : InterventionKill s.interventionTask.queue := by
          rcases hor with hkill | ⟨-, hnot⟩
          · exact hkill
          · exact absurd List.mem_cons_self hnot
        have htold := h.told (.inl hkill)
        simpa [Told, State.catchAll, State.throws] using htold
    | _ =>
      refine h.congr ?_ fun hnot hmem => hnot (List.mem_cons_of_mem _ hmem)
      simp [Told, State.catchAll, State.throws]
  | _ => exact h

end KillMessages

section Quiescence

/-- All that holds in every state that the daemon can reach, with the kill messages. -/
structure StopInv (host : Host ρ) (cfg : MailConfig) (s : State) : Prop where
  all : Inv host cfg s
  failed : FailedEnd s
  put : PutInv host s.processingTask
  input : InputInv s.inputTask s.processingTask s.inputQueue
  told : ToldInv s.processingTask s.history s.failed
  wait : WaitInv s.outputTask s.outputQueue s.history s.failed
  intervention : InterventionInv s.processingTask s.failed s.interventionTask

theorem StopInv.step (h : StopInv host cfg s) {x : Step}
    (hstep : step host cfg rules s x = some s') : StopInv host cfg s' where
  all := h.all.step hstep
  failed := h.failed.step hstep
  put := h.put.step h.all.kill hstep
  input := h.input.step hstep
  told := h.told.step h.all.kill h.put hstep
  wait := h.wait.step h.all.alerts hstep
  intervention := h.intervention.step h.failed h.put hstep

theorem stopInv_initial : StopInv host cfg (initial cfg) where
  all := inv_initial
  failed := by simp [FailedEnd, initial]
  put := putInv_of_idle (by simp [initial])
  input := by simp [InputInv, initial]
  told := ⟨by simp [initial, Sent, ProcessingPhase.toldOutput], by simp [initial]⟩
  wait := ⟨by simp [initial, Sent], by simp [initial]⟩
  intervention := ⟨by simp [initial, OutputTask.State.Busy], by simp [initial, Told],
    by simp [initial, OutputTask.KillWaits, OutputTask.Phase.reads]⟩

theorem stopInv_run (h : run host cfg rules steps = some s) : StopInv host cfg s :=
  runSteps_invariant (fun hs hx => hs.step hx) stopInv_initial h

theorem inputQueue_process (now : ℤ) (se : SourceEvent) (s : State) :
    (process host cfg rules now se s).inputQueue = s.inputQueue := by
  rw [process]
  split
  · rfl
  · simp only
    split <;> rfl

theorem ne_of_nextState {above : Option RuleId} {st : RulesState} {id : RuleId}
    {state : RuleState} (h : nextState above st = some (id, state)) : above ≠ some id := by
  rintro rfl
  have hlt := List.find?_some h
  simp at hlt

variable (hquiet : Quiescent host cfg rules s)
include hquiet

theorem Quiescent.inputTask (hrunning : s.running = false) : s.inputTask = .ended := by
  cases hphase : s.inputTask with
  | ended => rfl
  | head =>
    have hsame := hquiet .input _ (by simp) (by simp only [step, inputStep, hphase, hrunning]; rfl)
    simpa [hphase] using congrArg State.inputTask hsame
  | receiving =>
    have hsame := hquiet (.receive (.nothing none)) _ (by simp) (by simp only [step, hphase, if_true]; rfl)
    simpa [receive, hphase] using congrArg State.inputTask hsame
  | leaving =>
    have hsame := hquiet .input _ (by simp) (by simp only [step, inputStep, hphase]; rfl)
    simpa [hphase] using congrArg State.inputTask hsame

theorem Quiescent.processingTask :
    s.processingTask = .ended ∨ (s.processingTask = .loop ∧ s.inputQueue = []) := by
  cases hphase : s.processingTask with
  | ended => exact .inl rfl
  | loop =>
    refine .inr ⟨rfl, ?_⟩
    cases hqueue : s.inputQueue with
    | nil => rfl
    | cons se rest =>
      have hstep : step host cfg rules s (.processing 0) =
          some (process host cfg rules 0 se { s with inputQueue := rest }) := by
        simp only [step, processingStep, hphase, hqueue]
      have hrest := congrArg State.inputQueue (hquiet (.processing 0) _ (by simp) hstep)
      rw [inputQueue_process, hqueue] at hrest
      simpa using congrArg List.length hrest
  | putting puts stop =>
    cases puts with
    | nil =>
      have hsame := hquiet (.processing 0) _ (by simp) (by simp only [step, processingStep, hphase]; rfl)
      have hnext := congrArg State.processingTask hsame
      cases stop <;> simp [hphase] at hnext
    | cons p ps =>
      have hsame := hquiet (.processing 0) _ (by simp) (by simp only [step, processingStep, hphase]; rfl)
      have hnext := congrArg State.processingTask hsame
      simp [hphase] at hnext

theorem Quiescent.stateTask (hrunning : s.running = false) : s.stateTask = .ended := by
  cases hphase : s.stateTask with
  | ended => rfl
  | head =>
    have hsame := hquiet (.state 0) _ (by simp) (by simp only [step, stateStep, hphase, hrunning]; rfl)
    simpa [hphase] using congrArg State.stateTask hsame
  | passing above =>
    cases hnext : nextState above s.rulesState with
    | none =>
      have hsame := hquiet (.state 0) _ (by simp) (by simp only [step, stateStep, hphase, hnext]; rfl)
      simpa [hphase] using congrArg State.stateTask hsame
    | some entry =>
      obtain ⟨id, state⟩ := entry
      have hsame := hquiet (.state 0) _ (by simp) (by simp only [step, stateStep, hphase, hnext]; rfl)
      have hnew := congrArg State.stateTask hsame
      rw [hphase] at hnew
      cases hpoll : (statePoll cfg.toResearchConfig 0 state).2 with
      | none =>
        rw [hpoll] at hnew
        exact absurd (StatePhase.passing.inj hnew).symm (ne_of_nextState hnext)
      | some e =>
        rw [hpoll] at hnew
        exact absurd (StatePhase.passing.inj hnew).symm (ne_of_nextState hnext)

theorem Quiescent.outputTask :
    s.outputTask = .ended ∨ (s.outputTask = .loop ∧ s.outputQueue = []) := by
  cases hphase : s.outputTask with
  | ended => exact .inl rfl
  | loop =>
    refine .inr ⟨rfl, ?_⟩
    cases hqueue : s.outputQueue with
    | nil => rfl
    | cons e rest =>
      have hsame := hquiet .output _ (by simp) (by simp only [step, outputStep, hphase, hqueue]; rfl)
      simpa [hqueue] using congrArg (fun u => u.outputQueue.length) hsame
  | writing e =>
    have hsame := hquiet .output _ (by simp) (by simp only [step, outputStep, hphase]; rfl)
    simpa using congrArg (fun u => u.written.length) hsame
  | mailing e =>
    have hsame := hquiet .output _ (by simp) (by simp only [step, outputStep, hphase]; rfl)
    simpa [hphase] using congrArg State.outputTask hsame

theorem Quiescent.mailTask (hrunning : s.running = false) : s.mailTask.phase = .ended := by
  have hidle : ∀ x task, MailTask.step cfg s.running s.mailTask x = some task →
      task = s.mailTask := by
    intro x task hstep
    have hsame := hquiet (.mail x) { s with mailTask := task } (by simp) (by simp [step, hstep])
    exact congrArg State.mailTask hsame
  cases hphase : s.mailTask.phase with
  | ended => rfl
  | head =>
    have hsame := hidle .check _ (by simp only [MailTask.step, hphase]; rfl)
    simpa [hphase, hrunning] using congrArg MailTask.State.phase hsame
  | waiting =>
    cases hqueue : s.mailTask.queue with
    | nil =>
      have hsame := hidle .timeout _ (by simp only [MailTask.step, hphase, hqueue]; rfl)
      simpa [hphase] using congrArg MailTask.State.phase hsame
    | cons x rest =>
      have hsame := hidle .take _ (by simp only [MailTask.step, hphase, hqueue]; rfl)
      simpa [hphase] using congrArg MailTask.State.phase hsame
  | received x =>
    have hsame := hidle (.round atFive (.ok ())) _ (by simp only [MailTask.step, hphase]; rfl)
    simpa [hphase] using congrArg MailTask.State.phase hsame
  | leaving =>
    have hsame := hidle (.finish (.ok ())) _ (by simp only [MailTask.step, hphase]; rfl)
    simpa [hphase, MailTask.finish] using congrArg MailTask.State.phase hsame

theorem Quiescent.interventionTask (hinv : StopInv host cfg s) :
    s.interventionTask.phase = .ended ∨
      (s.interventionTask.phase = .loop ∧ s.interventionTask.queue = []) := by
  apply OutputTask.idle_cases (t := OutputTask.intervention) hinv.intervention.busy
  intro x task hx hstep
  have hstep' : step host cfg rules s (.intervention x) = some { s with interventionTask := task } := by
    cases x with
    | emplace i => exact absurd rfl (hx i)
    | take _ | timeout | resend _ => simp [step, hstep]
  exact congrArg State.interventionTask (hquiet _ _ (by simp) hstep')

end Quiescence

section Stuck

/-- When nothing moves any more, the threads that look at `RUNNING` and `processing_task` have
ended. -/
theorem Quiescent.ended (hquiet : Quiescent host cfg rules s) (hinv : StopInv host cfg s)
    (hrunning : s.running = false) : s.inputTask = .ended ∧ s.processingTask = .ended ∧
      s.stateTask = .ended ∧ s.mailTask.phase = .ended := by
  have hinput := hquiet.inputTask hrunning
  refine ⟨hinput, ?_, hquiet.stateTask hrunning, hquiet.mailTask hrunning⟩
  rcases hquiet.processingTask with hended | ⟨hphase, hqueue⟩
  · exact hended
  · obtain ⟨se, hse, -⟩ := hinv.input hinput (by rw [hphase]; rfl)
    simp [hqueue] at hse

theorem Quiescent.outputTask_iff (hquiet : Quiescent host cfg rules s)
    (hinv : StopInv host cfg s) :
    s.hasEnded .output = true ↔ Sent s.history ∨ .output ∈ s.failed := by
  have hended : s.hasEnded .output = true ↔ s.outputTask = .ended := by simp [State.hasEnded]
  constructor
  · exact fun h => hinv.wait.ended (hended.mp h)
  · rintro (hsent | hfailed)
    · rcases hquiet.outputTask with hphase | ⟨hphase, hqueue⟩
      · exact hended.mpr hphase
      · obtain ⟨e, he, -⟩ := hinv.wait.waits (by simp [hphase]) hsent
        simp [hqueue] at he
    · exact hinv.failed .output (by simp) hfailed

theorem Quiescent.interventionTask_iff (hquiet : Quiescent host cfg rules s)
    (hinv : StopInv host cfg s) (hphase : s.processingTask = .ended) :
    s.hasEnded .intervention = true ↔ .processing ∉ s.failed ∨ .intervention ∈ s.failed := by
  have hended : s.hasEnded .intervention = true ↔ s.interventionTask.phase = .ended := by
    simp [State.hasEnded]
  have htold : Told s.processingTask s.failed ↔ .processing ∉ s.failed := by simp [Told, hphase]
  constructor
  · intro h
    by_cases hfailed : .intervention ∈ s.failed
    · exact .inr hfailed
    · refine .inl (htold.mp (hinv.intervention.told (.inr ⟨?_, hfailed⟩)))
      rw [hended.mp h]
      rfl
  · rintro (hnot | hfailed)
    · rcases hquiet.interventionTask hinv with hphase' | ⟨hphase', hqueue⟩
      · exact hended.mpr hphase'
      · obtain ⟨e, he, -⟩ := hinv.intervention.waits (by rw [hphase']; rfl) (htold.mpr hnot)
        simp [hqueue] at he
    · exact hinv.failed .intervention (by simp) hfailed

theorem Quiescent.returned_iff (hquiet : Quiescent host cfg rules s)
    (hinv : StopInv host cfg s) (hrunning : s.running = false) :
    AllReturned cfg s ↔ (.processing ∈ s.failed →
      (Sent s.history ∨ .output ∈ s.failed) ∧ .intervention ∈ s.failed) := by
  obtain ⟨hinput, hprocessing, hstate, hmail⟩ := hquiet.ended hinv hrunning
  have hall : AllReturned cfg s ↔
      s.hasEnded .output = true ∧ s.hasEnded .intervention = true := by
    constructor
    · exact fun h => ⟨h .output (by simp [workers]), h .intervention (by simp [workers])⟩
    · rintro ⟨houtput, hintervention⟩ w -
      cases w with
      | output => exact houtput
      | intervention => exact hintervention
      | _ => simp [State.hasEnded, hinput, hprocessing, hstate, hmail]
  rw [hall, hquiet.outputTask_iff hinv, hquiet.interventionTask_iff hinv hprocessing]
  constructor
  · rintro ⟨houtput, hintervention⟩ hfailed
    exact ⟨houtput, hintervention.resolve_left (not_not_intro hfailed)⟩
  · intro h
    by_cases hfailed : .processing ∈ s.failed
    · exact ⟨(h hfailed).1, .inr (h hfailed).2⟩
    · exact ⟨.inl (hinv.told.sent hprocessing hfailed), .inl hfailed⟩

/-- Once `processing_task` has ended, and when an exception ends it, nobody sends the kill message
to `output_task`. -/
theorem sent_step (hinv : StopInv host cfg s) {x : Step}
    (hx : s.processingTask = .ended ∨ Throws host rules .processing s x)
    (hstep : step host cfg rules s x = some s') : Sent s'.history ↔ Sent s.history := by
  cases does_of_step hstep with
  | @puts now p ps stop hphase =>
    rcases hx with hended | hthrows
    · simp [hphase] at hended
    · exact absurd hthrows (not_throws_of_phase (by simp [hphase]))
  | raises hphase hnext hpoll =>
    exact sent_put.trans (or_iff_left (not_stops_of_poll hinv.all.kill.rules hnext hpoll))
  | @fails w hawake => cases w <;> exact Iff.rfl
  | _ => exact Iff.rfl

theorem ended_of_hasEnded (h : s.hasEnded .processing = true) : s.processingTask = .ended := by
  cases hphase : s.processingTask with
  | ended => rfl
  | _ => simp [State.hasEnded, hphase] at h

/-- An exception ends a thread only once. -/
theorem not_failed_of_throws (hinv : StopInv host cfg s) {x : Step}
    (hthrows : Throws host rules .processing s x) (hstep : step host cfg rules s x = some s') :
    s.processingTask ≠ .ended ∧ .processing ∉ s.failed := by
  have hne : s.processingTask ≠ .ended := by
    intro hended
    cases x with
    | fail w =>
      obtain rfl : w = .processing := hthrows
      simp [step, State.awake, hended] at hstep
    | processing now => exact ProcessingPhase.noConfusion (hended.symm.trans hthrows.2.1)
    | _ => exact hthrows
  exact ⟨hne, fun hmem => hne (ended_of_hasEnded (hinv.failed .processing (by simp) hmem))⟩

/-- What is known of the kill message when an exception ends `processing_task`. -/
theorem sent_iff_step {A B : Prop} (hinv : StopInv host cfg s) {x : Step}
    (hstep : step host cfg rules s x = some s') :
    (.processing ∈ s'.failed → (Sent s'.history ∨ A) ∧ B) ↔
      (.processing ∈ s.failed → (Sent s.history ∨ A) ∧ B) ∧
        (Throws host rules .processing s x → (s.processingTask.toldOutput ∨ A) ∧ B) := by
  have hfailed : .processing ∈ s'.failed ↔
      .processing ∈ s.failed ∨ Throws host rules .processing s x := by
    rw [← not_iff_not, not_or]
    exact failed_step hstep
  by_cases hthrows : Throws host rules .processing s x
  · obtain ⟨hne, hnot⟩ := not_failed_of_throws hinv hthrows hstep
    have hsent : Sent s'.history ↔ s.processingTask.toldOutput :=
      (sent_step hinv (.inr hthrows) hstep).trans (hinv.told.told hne)
    simp [hfailed, hthrows, hnot, hsent]
  · by_cases hmem : .processing ∈ s.failed
    · have hended := ended_of_hasEnded (hinv.failed .processing (by simp) hmem)
      have hsent := sent_step hinv (.inl hended) hstep
      simp [hfailed, hthrows, hmem, hsent]
    · simp [hfailed, hthrows, hmem]

/-- An exception that ends `processing_task` is harmless if the threads that wait for its kill
messages do without: `output_task` has been sent the message or ends with an exception of its
own in the run, and so does `intervention_task`. -/
def HarmlessThrow (host : Host ρ) (cfg : MailConfig) (rules : RuleCfg ρ) (steps : List Step)
    (s : State) (x : Step) : Prop :=
  Throws host rules .processing s x →
    (s.processingTask.toldOutput ∨ Fails host cfg rules .output steps) ∧
      Fails host cfg rules .intervention steps

/-- The research daemon does not get stuck while stopping. When `RUNNING` is false and no thread
can take a step any more, all threads have returned, exactly if the run has no exception in
`processing_task` that is not harmless. -/
theorem allReturned_iff (h : run host cfg rules steps = some s) (hrunning : s.running = false)
    (hquiet : Quiescent host cfg rules s) :
    AllReturned cfg s ↔
      StepsMeet (step host cfg rules) (HarmlessThrow host cfg rules steps) (initial cfg)
        steps := by
  rw [hquiet.returned_iff (stopInv_run h) hrunning, mem_failed_iff h (w := .output),
    mem_failed_iff h (w := .intervention)]
  exact stepsMeet_iff (fun hu hx => hu.step hx) (fun hu hx => sent_iff_step hu hx)
    stopInv_initial (by simp [initial]) h

/-- The main thread waits for a thread or has joined all. -/
def MainPhase.blocked (s : State) : MainPhase → Bool
  | .joining [] => true
  | .joining (w :: _) => !s.hasEnded w
  | _ => false

/-- No thread but `intervention_task` can take a step. -/
structure Resting (s : State) : Prop where
  main : s.main.blocked s = true
  input : s.inputTask = .ended
  processing : s.hasEnded .processing = true
  state : s.stateTask = .ended
  output : s.outputTask = .ended ∨ (s.outputTask = .loop ∧ s.outputQueue = [])
  mail : s.mailTask.phase = .ended

theorem Resting.step_eq_none (h : Resting s) {x : Step} (hx : ∀ y, x ≠ .intervention y)
    (hfail : x ≠ .fail .intervention) : step host cfg rules s x = none := by
  have hprocessing := ended_of_hasEnded h.processing
  have hmain : s.main ≠ .starting ∧ s.main ≠ .waiting ∧ joinStep s = none := by
    have hblocked := h.main
    cases hphase : s.main with
    | joining ws =>
      rw [hphase] at hblocked
      cases ws with
      | nil => simp [joinStep, hphase]
      | cons w ws =>
        have hnot : s.hasEnded w = false := by simpa [MainPhase.blocked] using hblocked
        simp [joinStep, hphase, hnot]
    | _ => simp [hphase, MainPhase.blocked] at hblocked
  cases x with
  | start now hostname => simp [step, hmain.1]
  | signal => simp [step, hmain.2.1]
  | timeout => simp [step, hmain.2.1]
  | join => exact hmain.2.2
  | input => simp [step, inputStep, h.input]
  | receive r => simp [step, h.input]
  | processing now => simp [step, processingStep, hprocessing]
  | state now => simp [step, stateStep, h.state]
  | output => rcases h.output with hended | ⟨hloop, hqueue⟩ <;> simp [step, outputStep, *]
  | intervention y => exact absurd rfl (hx y)
  | mail y =>
    have hnone : MailTask.step cfg s.running s.mailTask y = none :=
      Option.eq_none_iff_forall_ne_some.mpr fun task => mail_ended h.mail
    simp [step, hnone]
  | fail w =>
    cases w with
    | input => simp [step, State.awake, h.input]
    | processing => simp [step, State.awake, hprocessing]
    | state => simp [step, State.awake, h.state]
    | output => rcases h.output with hended | ⟨hloop, hqueue⟩ <;> simp [step, State.awake, *]
    | intervention => exact absurd rfl hfail
    | mail => simp [step, State.awake, h.mail]

theorem Resting.stops (h : Resting s) (hphase : s.interventionTask.phase = .ended) (x : Step) :
    step host cfg rules s x = none := by
  cases x with
  | intervention y =>
    cases y with
    | emplace i => rfl
    | take _ | timeout | resend _ => simp [step, OutputTask.step, hphase]
  | fail w =>
    cases w with
    | intervention => simp [step, State.awake, hphase]
    | _ => exact h.step_eq_none (by simp) (by simp)
  | _ => exact h.step_eq_none (by simp) (by simp)

/-- A timed wait without anything to send again changes nothing. -/
theorem Resting.quiescent (h : Resting s) (hphase : s.interventionTask.phase = .loop)
    (hqueue : s.interventionTask.queue = []) (hlocal : s.interventionTask.localQueue = []) :
    Quiescent host cfg rules s := by
  intro x s' hfail hstep
  cases x with
  | intervention y =>
    cases y with
    | emplace i => cases hstep
    | take sent => simp [step, OutputTask.step, hphase, hqueue] at hstep
    | resend sent => simp [step, OutputTask.step, hphase] at hstep
    | timeout =>
      simp only [step, OutputTask.step, hphase, hqueue, Option.map_some, Option.some.injEq] at hstep
      have hleave : OutputTask.intervention.drain .interval s.interventionTask =
          { s.interventionTask with phase := .loop } := by
        rw [OutputTask.drain, if_pos (by simp [hlocal])]
        rfl
      rw [← hstep, hleave, ← hphase]
  | _ => simp [h.step_eq_none (by simp) (hfail _)] at hstep

def badPatternRules : RuleCfg PlainRegex := plainRules [badPatternFile]

/-- The first message makes `process_log` throw. The main thread finds the exception and stops the
daemon. -/
def stuckRun : List Step :=
  [.start 1 "host", .processing 1, .timeout, .input, .input, .state 1, .mail .check,
    .mail (.finish (.ok ())), .join, .join, .join]

/-- What tells that the daemon is at rest, and at what its consumers are. -/
def observed (s : State) : List Bool × OutputPhase × OutputTask.Phase × List ℕ :=
  ([s.running, s.main.blocked s, s.inputTask = .ended, s.hasEnded .processing, s.stateTask = .ended,
    s.mailTask.phase = .ended], s.outputTask, s.interventionTask.phase,
    [s.outputQueue.length, s.interventionTask.queue.length, s.interventionTask.localQueue.length])

/-- With `RUNNING` false, a blocked main thread and empty queues. -/
def restView (output : OutputPhase) (phase : OutputTask.Phase) :
    List Bool × OutputPhase × OutputTask.Phase × List ℕ :=
  ([false, true, true, true, true, true], output, phase, [0, 0, 0])

theorem resting_of_observed {output : OutputPhase} {phase : OutputTask.Phase}
    (houtput : output = .ended ∨ output = .loop) (h : observed s = restView output phase) :
    Resting s ∧ s.running = false ∧ s.outputTask = output ∧ s.interventionTask.phase = phase ∧
      s.interventionTask.queue = [] ∧ s.interventionTask.localQueue = [] := by
  simp only [observed, restView, Prod.mk.injEq, List.cons.injEq, decide_eq_true_eq,
    List.length_eq_zero_iff, and_true] at h
  obtain ⟨⟨hrunning, hmain, hinput, hprocessing, hstate, hmail⟩, hphase, htask, hqueue, hqueue',
    hlocal⟩ := h
  refine ⟨⟨hmain, hinput, hprocessing, hstate, ?_, hmail⟩, hrunning, hphase, htask, hqueue',
    hlocal⟩
  rw [hphase, hqueue]
  simpa using houtput

/-- The rules are accepted, and `output_task` and `intervention_task` wait for a kill message that
no thread will send. If an exception ends `intervention_task` too, no thread can do anything. -/
theorem stuckRun_gets_stuck : (parseFiles plainHost [badPatternFile]).isOk = true ∧
    (∃ s, run plainHost {} badPatternRules stuckRun = some s ∧ s.running = false ∧
      Quiescent plainHost {} badPatternRules s ∧ s.hasEnded .output = false ∧
        s.hasEnded .intervention = false) ∧
    ∃ s, run plainHost {} badPatternRules (stuckRun ++ [.fail .intervention]) = some s ∧
      s.running = false ∧ (∀ x, step plainHost {} badPatternRules s x = none) ∧
        s.hasEnded .output = false := by
  refine ⟨by decide +kernel, ?_, ?_⟩
  · have hrun : (run plainHost {} badPatternRules stuckRun).map observed =
        some (restView .loop .loop) := by
      decide +kernel
    obtain ⟨s, hs, hview⟩ := Option.map_eq_some_iff.mp hrun
    obtain ⟨hrest, hrunning, houtput, hphase, hqueue, hlocal⟩ :=
      resting_of_observed (.inr rfl) hview
    exact ⟨s, hs, hrunning, hrest.quiescent hphase hqueue hlocal, by simp [State.hasEnded, houtput],
      by simp [State.hasEnded, hphase]⟩
  · have hrun : (run plainHost {} badPatternRules (stuckRun ++ [.fail .intervention])).map observed =
        some (restView .loop .ended) := by
      decide +kernel
    obtain ⟨s, hs, hview⟩ := Option.map_eq_some_iff.mp hrun
    obtain ⟨hrest, hrunning, houtput, hphase, -⟩ := resting_of_observed (.inr rfl) hview
    exact ⟨s, hs, hrunning, hrest.stops hphase, by simp [State.hasEnded, houtput]⟩

/-- A run without an exception ends with all threads joined. -/
theorem allReturned_iff_timelyRun : ∃ s, run plainHost {} waitingRules timelyRun = some s ∧
    (AllReturned {} s ↔ StepsMeet (step plainHost {} waitingRules)
      (HarmlessThrow plainHost {} waitingRules timelyRun) (initial {}) timelyRun) := by
  have hrun : (run plainHost {} waitingRules timelyRun).map observed =
      some (restView .ended .ended) := by
    decide +kernel
  obtain ⟨s, hs, hview⟩ := Option.map_eq_some_iff.mp hrun
  obtain ⟨hrest, hrunning, -, hphase, -⟩ := resting_of_observed (.inl rfl) hview
  have hquiet : Quiescent plainHost {} waitingRules s := by
    intro x s' hfail hstep
    rw [hrest.stops hphase x] at hstep
    cases hstep
  exact ⟨s, hs, allReturned_iff hs hrunning hquiet⟩

end Stuck

end Ctguard.ResearchDaemon
