import Ctguard.MailTask
import Ctguard.StepRuns

/-!
# Batches of alerts

Alerts are put into the mail queue while `mail_task` goes round its loop. Whatever clocks it reads
and however the sends end, nothing that is to be mailed gets lost, and nothing is mailed twice:
what was taken is in the mails that were sent and in the local queue, in the order of arrival. The
running maximum belongs to the local queue, so an urgent alert stays in it only if a send failed.
-/

namespace Ctguard.MailTask

open OutputTask (Sent)

/-- An alert is put into the queue, or `mail_task` takes a step. -/
inductive Move where
  | put (x : ℕ × Event)
  | task (x : Step)

/-- The task and its queue while the daemon is running. -/
def move (cfg : MailConfig) (s : State) : Move → Option State
  | .put x => some { s with queue := s.queue ++ [x] }
  | .task x => step cfg true s x

/-- What was put into the queue, in order. -/
def arrivals (moves : List Move) : List (ℕ × Event) :=
  moves.filterMap fun
    | .put x => some x
    | .task _ => none

section Batches

variable {cfg : MailConfig} {s s' : State}

@[simp] theorem arrivals_put (moves : List Move) (x : ℕ × Event) :
    arrivals (moves ++ [.put x]) = arrivals moves ++ [x] := by
  simp [arrivals]

@[simp] theorem arrivals_task (moves : List Move) (x : Step) :
    arrivals (moves ++ [.task x]) = arrivals moves := by
  simp [arrivals]

/-- A move of the task is a step with the daemon running. -/
theorem step_of_move {x : Step} (h : move cfg s (.task x) = some s') :
    step cfg true s x = some s' := h

/-- The running maximum is the highest priority in the local queue, or zero. -/
structure Highest (s : State) : Prop where
  empty : s.localQueue = [] → s.maxPriority = 0
  reached : s.localQueue ≠ [] → ∃ x ∈ s.localQueue, x.2.priority = s.maxPriority
  bound : ∀ x ∈ s.localQueue, x.2.priority ≤ s.maxPriority

theorem Highest.congr (h : Highest s) (hlocal : s'.localQueue = s.localQueue)
    (hmax : s'.maxPriority = s.maxPriority) : Highest s' := by
  constructor
  · rw [hlocal, hmax]
    exact h.empty
  · rw [hlocal, hmax]
    exact h.reached
  · rw [hlocal, hmax]
    exact h.bound

theorem Highest.accept (h : Highest s) (now : ℤ) (x : ℕ × Event) :
    Highest (accept cfg now x s) := by
  rw [MailTask.accept]
  split_ifs with hmails hlt
  · -- the new alert is the most urgent one
    refine ⟨by simp, fun _ => ⟨x, by simp, rfl⟩, ?_⟩
    intro y hy
    rcases List.mem_append.mp hy with hy | hy
    · exact UInt16.le_trans (h.bound y hy) (UInt16.le_of_lt hlt)
    · rw [List.mem_singleton.mp hy]
      exact UInt16.le_refl _
  · have hle : x.2.priority ≤ s.maxPriority := UInt16.not_lt.mp hlt
    refine ⟨by simp, fun _ => ?_, ?_⟩
    · by_cases hempty : s.localQueue = []
      · refine ⟨x, by simp, ?_⟩
        rw [h.empty hempty] at hle
        change x.2.priority = s.maxPriority
        rw [h.empty hempty]
        exact UInt16.le_antisymm hle UInt16.zero_le
      · obtain ⟨y, hy, heq⟩ := h.reached hempty
        exact ⟨y, List.mem_append_left _ hy, heq⟩
    · intro y hy
      rcases List.mem_append.mp hy with hy | hy
      · exact h.bound y hy
      · rw [List.mem_singleton.mp hy]
        exact hle
  · exact h

/-- What a round does behind the acceptance: nothing, a mail with the whole local queue, or an
attempt that fails and is logged. -/
inductive Dispatched (cfg : MailConfig) (c : Readings) (s : State) : Sent → State → Prop
  | idle {sent : Sent} (hdue : ¬ (Due cfg c s ∧ s.localQueue ≠ [])) : Dispatched cfg c s sent s
  | mailed (hdue : Due cfg c s) (hne : s.localQueue ≠ []) : Dispatched cfg c s (.ok ())
      { s with
        lastSend := c.send, sent := s.sent ++ [s.localQueue], localQueue := [], maxPriority := 0 }
  | failed {what : String} (hdue : Due cfg c s) (hne : s.localQueue ≠ []) :
      Dispatched cfg c s (.error what)
        { s with lastSend := c.send, log := s.log ++ [cannotSend what] }

theorem dispatched (c : Readings) (sent : Sent) (s : State) :
    Dispatched cfg c s sent (dispatch cfg c sent s) := by
  rw [dispatch]
  by_cases h : Due cfg c s ∧ s.localQueue ≠ []
  · rw [if_pos h]
    cases sent with
    | ok u => exact .mailed h.1 h.2
    | error what => exact .failed h.1 h.2
  · rw [if_neg h]
    exact .idle h

theorem Highest.dispatch (h : Highest s) (c : Readings) (sent : Sent) :
    Highest (dispatch cfg c sent s) := by
  have hcases := @dispatched cfg c sent s
  generalize MailTask.dispatch cfg c sent s = s' at hcases ⊢
  cases hcases with
  | idle hdue => exact h
  | mailed hdue hne => exact ⟨fun _ => rfl, fun hne => absurd rfl hne, by simp⟩
  | failed hdue hne => exact h.congr rfl rfl

/-- What is left of the alerts after a round is urgent only if an attempt to send it failed. -/
theorem Highest.urgent (h : Highest s) {c : Readings} {sent : Sent}
    {x : ℕ × Event} (hx : x ∈ (MailTask.dispatch cfg c sent s).localQueue)
    (hurgent : cfg.mailInstant ≤ x.2.priority) :
    ∃ what, sent = .error what ∧
      (MailTask.dispatch cfg c sent s).log = s.log ++ [cannotSend what] ∧
      (MailTask.dispatch cfg c sent s).lastSend = c.send := by
  have hcases := @dispatched cfg c sent s
  generalize MailTask.dispatch cfg c sent s = s' at hcases hx ⊢
  cases hcases with
  | idle hdue =>
    have hmax : cfg.mailInstant ≤ s.maxPriority := UInt16.le_trans hurgent (h.bound x hx)
    exact absurd ⟨.inl hmax, List.ne_nil_of_mem hx⟩ hdue
  | mailed hdue hne => simp at hx
  | @failed what hdue hne => exact ⟨what, rfl, rfl, rfl⟩

/-- The state that a round starts to dispatch from. -/
theorem round_eq {running : Bool} {c : Readings} {sent : Sent}
    (h : step cfg running s (.round c sent) = some s') : ∃ x, s.phase = .received x ∧
      s' = { dispatch cfg c sent (x.elim s fun x => accept cfg c.event x s) with
        phase := .head } := by
  simp only [step] at h
  split at h
  · rename_i x hphase
    exact ⟨x, hphase, (Option.some.inj h).symm⟩
  · cases h

theorem Highest.elim_accept (h : Highest s) (now : ℤ) (x : Option (ℕ × Event)) :
    Highest (x.elim s fun x => MailTask.accept cfg now x s) := by
  cases x with
  | none => exact h
  | some x => exact h.accept now x

/-- The loop is not left while the daemon is running. -/
theorem not_leaving_step (h : s.phase ≠ .leaving) {m : Move} (hmove : move cfg s m = some s') :
    s'.phase ≠ .leaving := by
  cases m with
  | put x =>
    obtain rfl := Option.some.inj hmove
    exact h
  | task x =>
    cases does_of_step (step_of_move hmove) with
    | loop hphase hrunning => simp
    | leave hphase hrunning => cases hrunning
    | take hphase hqueue => simp
    | timeout hphase hqueue => simp
    | round c sent hphase hphase' => simp [hphase']
    | finish sent hphase => exact absurd hphase h

theorem Highest.step (h : Highest s) (hloop : s.phase ≠ .leaving) {m : Move}
    (hmove : move cfg s m = some s') : Highest s' := by
  cases m with
  | put x =>
    obtain rfl := Option.some.inj hmove
    exact h.congr rfl rfl
  | task x =>
    cases x with
    | round c sent =>
      obtain ⟨y, -, rfl⟩ := round_eq (step_of_move hmove)
      exact ((h.elim_accept c.event y).dispatch c sent).congr rfl rfl
    | finish sent =>
      cases does_of_step (step_of_move hmove) with
      | finish _ hphase => exact absurd hphase hloop
    | _ =>
      simp only [move, MailTask.step] at hmove
      split at hmove
      · obtain rfl := Option.some.inj hmove
        exact h.congr rfl rfl
      · cases hmove

/-- What was taken, and what has become of that part of it that is to be mailed. -/
def Accounted (cfg : MailConfig) (moves : List Move) (s : State) : Prop :=
  ∃ taken, arrivals moves = taken ++ s.queue ∧
    s.kept ++ s.phase.kept cfg = taken.filter fun x => cfg.Mails x.2

theorem Accounted.step {moves : List Move} (h : Accounted cfg moves s) {m : Move}
    (hmove : move cfg s m = some s') : Accounted cfg (moves ++ [m]) s' := by
  obtain ⟨taken, harrivals, hkept⟩ := h
  cases m with
  | put x =>
    obtain rfl := Option.some.inj hmove
    exact ⟨taken, by rw [arrivals_put, harrivals, List.append_assoc], hkept⟩
  | task x =>
    have hsame : arrivals (moves ++ [.task x]) = taken ++ s.queue := by
      rw [arrivals_task, harrivals]
    cases does_of_step (step_of_move hmove) with
    | loop hphase hrunning => exact ⟨taken, hsame, by rw [← hkept, hphase]; rfl⟩
    | leave hphase hrunning => exact ⟨taken, hsame, by rw [← hkept, hphase]; rfl⟩
    | @take y rest hphase hqueue =>
      refine ⟨taken ++ [y], by rw [hsame, hqueue]; simp, ?_⟩
      rw [hphase] at hkept
      rw [List.filter_append, ← hkept]
      by_cases hmails : cfg.Mails y.2 <;> simp [Phase.kept, hmails, State.kept]
    | timeout hphase hqueue => exact ⟨taken, hsame, by rw [← hkept, hphase]; rfl⟩
    | round c sent hphase hphase' hqueue hkept' =>
      exact ⟨taken, by rw [hsame, hqueue], by rw [hkept', hphase', ← hkept]; simp [Phase.kept]⟩
    | finish sent hphase hphase' hqueue hkept' =>
      exact ⟨taken, by rw [hsame, hqueue], by rw [hkept', hphase', ← hkept, hphase]; rfl⟩

/-- The run of the loop, from its start. -/
theorem invariant_run {moves : List Move} (h : runSteps (move cfg) {} moves = some s) :
    s.phase ≠ .leaving ∧ Highest s ∧ Accounted cfg moves s := by
  induction moves using List.reverseRecOn generalizing s with
  | nil =>
    obtain rfl := Option.some.inj h
    exact ⟨by simp, ⟨fun _ => rfl, fun hne => absurd rfl hne, by simp⟩, [], rfl, rfl⟩
  | append_singleton moves m ih =>
    obtain ⟨u, hu, hmove⟩ := runSteps_concat.mp h
    obtain ⟨hloop, hhighest, haccounted⟩ := ih hu
    exact ⟨not_leaving_step hloop hmove, hhighest.step hloop hmove, haccounted.step hmove⟩

/-- Whatever arrives, whatever the clock says and however the sends end: at every head of the loop
the alerts that were taken and are to be mailed are in sent mails and in the local queue, in the
order in which they came; the running maximum is the highest priority in the local queue; and a
round that leaves an urgent alert there has tried to send it and logs the failure. -/
theorem mail_batching {moves : List Move} (h : runSteps (move cfg) {} moves = some s) :
    (s.phase = .head → ∃ taken, arrivals moves = taken ++ s.queue ∧
      s.sent.flatten ++ s.localQueue = (taken.filter fun x => cfg.Mails x.2) ∧
      ((arrivals moves).Nodup → (s.sent.flatten ++ s.localQueue).Nodup)) ∧
      Highest s ∧
      ∀ c sent s', move cfg s (.task (.round c sent)) = some s' →
        ∀ x ∈ s'.localQueue, cfg.mailInstant ≤ x.2.priority →
          ∃ what, sent = .error what ∧ s'.log = s.log ++ [cannotSend what] ∧
            s'.lastSend = c.send := by
  obtain ⟨hloop, hhighest, taken, harrivals, hkept⟩ := invariant_run h
  refine ⟨?_, hhighest, ?_⟩
  · intro hhead
    have hlists : s.sent.flatten ++ s.localQueue = taken.filter fun x => cfg.Mails x.2 := by
      rw [← hkept, hhead]
      simp [State.kept, Phase.kept]
    refine ⟨taken, harrivals, hlists, ?_⟩
    intro hnodup
    rw [harrivals] at hnodup
    rw [hlists]
    exact (List.nodup_append.mp hnodup).1.filter _
  · intro c sent s' hmove x hx hurgent
    obtain ⟨y, -, rfl⟩ := round_eq (step_of_move hmove)
    obtain ⟨what, hsent, hlog, hlast⟩ := (hhighest.elim_accept c.event y).urgent hx hurgent
    refine ⟨what, hsent, ?_, hlast⟩
    have hsame : (y.elim s fun x => accept cfg c.event x s).log = s.log := by
      cases y with
      | none => rfl
      | some y =>
        simp only [Option.elim, accept]
        split_ifs <;> rfl
    rw [← hsame]
    exact hlog

end Batches

section Witness

def clock : Readings := ⟨100, 100, 100, 100, 100⟩

/-- Two urgent alerts; the mail with the first one can not be sent at once. -/
def failingSend : List Move :=
  [.put (0, { priority := 7 }), .task .check, .task .take, .task (.round clock (.error "refused")),
    .put (1, { priority := 9 }), .task .check, .task .take, .task (.round clock (.error "refused")),
    .task .check, .task .timeout, .task (.round clock (.ok ()))]

theorem mail_batching_failingSend : ∃ s : State, runSteps (move {}) {} failingSend = some s ∧
    s.phase = .head ∧ s.sent.flatten ++ s.localQueue = [(0, { priority := 7 }), (1, { priority := 9 })] ∧
    Highest s ∧ s.maxPriority = 0 := by
  obtain ⟨s, hrun, hphase, hqueue, hmax⟩ : ∃ s : State, runSteps (move {}) {} failingSend = some s ∧
      s.phase = .head ∧ s.queue = [] ∧ s.maxPriority = 0 := ⟨_, rfl, rfl, rfl, rfl⟩
  obtain ⟨hhead, hhighest, -⟩ := mail_batching hrun
  obtain ⟨taken, harrivals, hlists, -⟩ := hhead hphase
  rw [hqueue, List.append_nil] at harrivals
  refine ⟨s, hrun, hphase, ?_, hhighest, hmax⟩
  rw [hlists, ← harrivals]
  decide

end Witness

end Ctguard.MailTask
