import Ctguard.InterventionThreads
import Ctguard.PlainHost
import Mathlib.Algebra.GroupWithZero.Nat

/-!
# What comes of the commands and of their processes

However the steps of the threads follow each other, the programs that were executed are those of
`processing_task` alone on the commands it is through with, and these commands are the first ones
that arrived. A daemon that is stopped is through with all of them, unless `processing_task` ended
with an exception. Each process is waited for a bounded number of times, and is reaped or killed
before the next one starts, or it is logged that it could not be killed; no descriptor of its pipes
stays open.
-/

namespace Ctguard.InterventionThreads

open InterventionConfig

variable {ρ : Type} {host : Host ρ} {cfg : InterventionConfig} {s s' : State} {x : Step}

section Checks

/-- The checks accept what the model of the whole task lets run. -/
theorem toOption_check (icmd : InterventionCmd String) :
    (check host cfg icmd).toOption = checked host cfg icmd := by
  unfold check checked
  cases cfg.findAction icmd.name with
  | none => rfl
  | some action =>
    cases hcompile : host.compile action.regex with
    | error what => simp [passes, hcompile, Except.toOption]
    | ok r =>
      cases hmatch : (host.fullMatch r icmd.argument).isSome with
      | false => simp [passes, hcompile, hmatch, Except.toOption]
      | true =>
        by_cases hwhite : icmd.argument ∈ action.whitelist
        · simp [passes, hcompile, hmatch, hwhite, Except.toOption]
        · simp [passes, hcompile, hmatch, hwhite, Except.toOption]

theorem checked_of_check {icmd : InterventionCmd String} {action : InterventionAction}
    (h : check host cfg icmd = .ok action) : checked host cfg icmd = some action := by
  rw [← toOption_check, h]
  rfl

theorem checked_eq_none {icmd : InterventionCmd String} {line : Level × String}
    (h : check host cfg icmd = .error line) : checked host cfg icmd = none := by
  rw [← toOption_check, h]
  rfl

/-- The task goes on behind commands that do not end it. -/
theorem processingTask_append {rs : List Received} (h : ∀ r ∈ rs, GoesOn host cfg r)
    (rs' : List Received) : processingTask host cfg (rs ++ rs') =
      processingTask host cfg rs ++ processingTask host cfg rs' := by
  induction rs with
  | nil => rfl
  | cons r rs ih =>
    have hrest := ih fun q hq => h q (List.mem_cons_of_mem r hq)
    obtain ⟨hkill, hspawn⟩ := h r List.mem_cons_self
    rw [List.cons_append, processingTask, processingTask]
    simp only [hkill, Bool.false_eq_true, if_false]
    cases hchecked : checked host cfg r.icmd with
    | none => exact hrest
    | some action =>
      have hstarted : r.spawn ≠ .failed := hspawn (by rw [hchecked]; rfl)
      cases hanswer : r.spawn with
      | failed => exact absurd hanswer hstarted
      | gaveUp => exact hrest
      | reached =>
        show _ :: processingTask host cfg (rs ++ rs') = _
        rw [hrest]
        rfl

theorem processingTask_refused {icmd : InterventionCmd String}
    (h : checked host cfg icmd = none) : processingTask host cfg [{ icmd := icmd }] = [] := by
  simp [processingTask, h]

theorem processingTask_failed (icmd : InterventionCmd String) :
    processingTask host cfg [{ icmd := icmd, spawn := .failed }] = [] := by
  rw [processingTask]
  cases checked host cfg icmd with
  | none => rfl
  | some action => rfl

theorem processingTask_started {icmd : InterventionCmd String} {action : InterventionAction}
    {answer : Start} (h : checked host cfg icmd = some action) (hstarted : answer.spawn ≠ .failed) :
    processingTask host cfg [{ icmd := icmd, spawn := answer.spawn }] =
      answer.executions action icmd := by
  cases answer with
  | noPipe => exact absurd rfl hstarted
  | onePipe => exact absurd rfl hstarted
  | noFork => exact absurd rfl hstarted
  | gaveUp => simp [processingTask, h, Start.spawn, Start.executions]
  | reached => simp [processingTask, h, Start.spawn, Start.executions]

end Checks

section Commands

/-- The commands in the datagrams that arrive. -/
def arrived (steps : List Step) : List (InterventionCmd String) :=
  steps.filterMap fun
    | .receive (some datagram) => decode datagram
    | _ => none

/-- The command that was taken from the queue and not started yet. -/
def State.taken (s : State) : List (InterventionCmd String) :=
  match s.processingTask with
  | .starting icmd _ => [icmd]
  | _ => []

/-- The commands in the queue, without the message to end. -/
def State.queued (s : State) : List (InterventionCmd String) :=
  (s.queue.filter fun e => !e.2).map (·.1)

/-- The programs that were executed are those of `processing_task` on the commands it is through
with. No command is lost on the way to it, and the message to end comes last. -/
structure Flow (host : Host ρ) (cfg : InterventionConfig) (s : State) : Prop where
  kept : s.puts = s.done.map (·.icmd) ++ s.taken ++ s.queued
  order : ∃ cmds : List (InterventionCmd String), s.queue = cmds.map (·, false) ∨
    (s.inputTask = .ended ∧ s.queue = cmds.map (·, false) ++ [(⟨"", ""⟩, true)])
  asked : s.inputTask = .ended → s.processingTask ≠ .ended → ∃ e ∈ s.queue, e.2 = true
  drained : s.processingTask = .ended →
    .processing ∈ s.failed ∨ (s.inputTask = .ended ∧ s.queue = [])
  threw : .processing ∈ s.failed → s.processingTask = .ended
  checked : ∀ icmd action, s.processingTask = .starting icmd action →
    checked host cfg icmd = some action
  executed : s.executions = processingTask host cfg s.done
  goesOn : .processing ∉ s.failed → ∀ r ∈ s.done, GoesOn host cfg r

theorem Flow.initial : Flow host cfg {} where
  kept := rfl
  order := ⟨[], .inl rfl⟩
  asked h := by cases h
  drained h := by cases h
  threw h := by cases h
  checked _ _ h := by cases h
  executed := rfl
  goesOn _ r hr := by cases hr

theorem Flow.kept_step (h : Flow host cfg s) (hx : Does host cfg s x s') :
    s'.puts = s'.done.map (·.icmd) ++ s'.taken ++ s'.queued := by
  have hkept := h.kept
  cases hx with
  | stops | idles | joins | opens | checks => exact hkept
  | leaves => simpa [State.taken, State.queued] using hkept
  | receives next cmds =>
    have hcmds : ((cmds.map fun icmd => (icmd, false)).filter fun e => !e.2).map (·.1) = cmds := by
      induction cmds with
      | nil => rfl
      | cons icmd cmds ih => simp [ih]
    simp only [State.taken, State.queued, List.filter_append, List.map_append, hcmds] at hkept ⊢
    rw [hkept, List.append_assoc]
  | takesKill hphase hqueue =>
    simpa [State.taken, State.queued, hphase, hqueue] using hkept
  | accepts hphase hqueue hcheck =>
    simpa [State.taken, State.queued, hphase, hqueue] using hkept
  | refuses hphase hqueue hcheck =>
    simpa [State.taken, State.queued, hphase, hqueue] using hkept
  | startsNot hphase hfailed =>
    simpa [State.taken, State.queued, State.throws, hphase] using hkept
  | starts hphase hstarted => simpa [State.taken, State.queued, hphase] using hkept
  | sleeps hphase htimeout => simpa [State.taken, State.queued, hphase] using hkept
  | settles fate lines hphase hfate =>
    simpa [State.taken, State.queued, State.settle, hphase] using hkept
  | reads lines hphase => exact hkept
  | closes lines hphase =>
    rename_i icmd fromStderr answer
    cases fromStderr with
    | false => simpa [State.taken, State.queued, hphase] using hkept
    | true => simpa [State.taken, State.queued, hphase] using hkept
  | fails hawake =>
    rename_i w
    cases w with
    | input => exact hkept
    | processing =>
      cases hphase : s.processingTask with
      | starting icmd action =>
        simpa [State.taken, State.queued, State.catchAll, State.throws, hphase] using hkept
      | _ => simpa [State.taken, State.queued, State.catchAll, State.throws, hphase] using hkept

/-- What is taken from the front leaves the message to end where it is. -/
theorem Flow.order_rest (h : Flow host cfg s) {e : InterventionCmd String × Bool}
    {rest : List (InterventionCmd String × Bool)} (hqueue : s.queue = e :: rest) :
    ∃ cmds : List (InterventionCmd String), rest = cmds.map (·, false) ∨
      (s.inputTask = .ended ∧ rest = cmds.map (·, false) ++ [(⟨"", ""⟩, true)]) := by
  obtain ⟨cmds, horder⟩ := h.order
  rw [hqueue] at horder
  cases cmds with
  | nil =>
    rcases horder with hempty | ⟨-, hkill⟩
    · cases hempty
    · exact ⟨[], .inl (List.cons.inj hkill).2⟩
  | cons first cmds =>
    refine ⟨cmds, horder.imp ?_ ?_⟩
    · intro hall
      exact (List.cons.inj hall).2
    · rintro ⟨hended, hall⟩
      exact ⟨hended, (List.cons.inj hall).2⟩

theorem Flow.order_step (h : Flow host cfg s) (hx : Does host cfg s x s') :
    ∃ cmds : List (InterventionCmd String), s'.queue = cmds.map (·, false) ∨
      (s'.inputTask = .ended ∧ s'.queue = cmds.map (·, false) ++ [(⟨"", ""⟩, true)]) := by
  obtain ⟨cmds, horder⟩ := h.order
  have hopen : s.inputTask ≠ .ended → s.queue = cmds.map (·, false) := by
    intro hinput
    exact horder.resolve_right fun hended => hinput hended.1
  cases hx with
  | stops | idles | joins | startsNot | starts | sleeps | settles | reads | closes =>
    exact ⟨cmds, horder⟩
  | opens hphase => exact ⟨cmds, .inl (hopen (by rw [hphase]; decide))⟩
  | checks hphase => exact ⟨cmds, .inl (hopen (by rw [hphase]; decide))⟩
  | leaves hphase =>
    refine ⟨cmds, .inr ⟨rfl, ?_⟩⟩
    rw [hopen (by rw [hphase]; decide)]
  | receives next more hphase hnext =>
    refine ⟨cmds ++ more, .inl ?_⟩
    show s.queue ++ more.map (·, false) = _
    rw [hopen (by rw [hphase]; decide), List.map_append]
  | takesKill hphase hqueue => exact h.order_rest hqueue
  | accepts hphase hqueue hcheck => exact h.order_rest hqueue
  | refuses hphase hqueue hcheck => exact h.order_rest hqueue
  | fails hawake =>
    rename_i w
    cases w with
    | input =>
      refine ⟨cmds, .inl (hopen fun hended => ?_)⟩
      simp [State.awake, hended] at hawake
    | processing => exact ⟨cmds, horder⟩

theorem Flow.asked_step (h : Flow host cfg s) (hx : Does host cfg s x s')
    (hinput : s'.inputTask = .ended) (hprocessing : s'.processingTask ≠ .ended) :
    ∃ e ∈ s'.queue, e.2 = true := by
  cases hx with
  | stops | idles | joins | reads => exact h.asked hinput hprocessing
  | opens hphase => cases hinput
  | checks hphase =>
    have hnext : (if s.running then InputPhase.receiving else .leaving) ≠ .ended := by
      split <;> simp
    exact absurd hinput hnext
  | leaves hphase => exact ⟨(⟨"", ""⟩, true), by simp, rfl⟩
  | receives next cmds hphase hnext =>
    obtain rfl : next = .ended := hinput
    simp at hnext
  | takesKill hphase hqueue => exact absurd rfl hprocessing
  | accepts hphase hqueue hcheck | refuses hphase hqueue hcheck =>
    obtain ⟨e, he, hkill⟩ := h.asked hinput (by rw [hphase]; simp)
    rw [hqueue] at he
    rcases List.mem_cons.mp he with rfl | he
    · cases hkill
    · exact ⟨e, he, hkill⟩
  | startsNot hphase hfailed => exact absurd rfl hprocessing
  | starts hphase hstarted => exact h.asked hinput (by rw [hphase]; simp)
  | sleeps hphase htimeout => exact h.asked hinput (by rw [hphase]; simp)
  | settles fate lines hphase hfate => exact h.asked hinput (by rw [hphase]; simp)
  | closes lines hphase => exact h.asked hinput (by rw [hphase]; simp)
  | fails hawake =>
    rename_i w
    cases w with
    | input => cases hinput
    | processing => exact absurd rfl hprocessing

theorem Flow.drained_step (h : Flow host cfg s) (hx : Does host cfg s x s')
    (hprocessing : s'.processingTask = .ended) :
    .processing ∈ s'.failed ∨ (s'.inputTask = .ended ∧ s'.queue = []) := by
  have hother : ∀ phase, s.inputTask = phase → phase ≠ .ended → s.processingTask = .ended →
      .processing ∈ s.failed := by
    intro phase hphase hne hended
    refine (h.drained hended).resolve_right ?_
    rintro ⟨hinput, -⟩
    exact hne (hphase.symm.trans hinput)
  cases hx with
  | stops | idles | joins | reads => exact h.drained hprocessing
  | opens hphase => exact .inl (hother _ hphase (by simp) hprocessing)
  | checks hphase => exact .inl (hother _ hphase (by simp) hprocessing)
  | leaves hphase => exact .inl (hother _ hphase (by simp) hprocessing)
  | receives next cmds hphase hnext => exact .inl (hother _ hphase (by simp) hprocessing)
  | takesKill hphase hqueue =>
    obtain ⟨cmds, horder⟩ := h.order
    rw [hqueue] at horder
    rcases horder with hall | ⟨hinput, hall⟩
    · cases cmds with
      | nil => cases hall
      | cons icmd cmds => simp at hall
    · cases cmds with
      | nil => exact .inr ⟨hinput, (List.cons.inj hall).2⟩
      | cons icmd cmds => simp at hall
  | accepts hphase hqueue hcheck => cases hprocessing
  | refuses hphase hqueue hcheck =>
    have hloop : s.processingTask = .ended := hprocessing
    rw [hphase] at hloop
    cases hloop
  | startsNot hphase hfailed => exact .inl List.mem_cons_self
  | starts hphase hstarted => cases hprocessing
  | sleeps hphase htimeout => cases hprocessing
  | settles fate lines hphase hfate => cases hprocessing
  | closes lines hphase =>
    rename_i icmd fromStderr answer
    cases fromStderr with
    | false => cases hprocessing
    | true => cases hprocessing
  | fails hawake =>
    rename_i w
    cases w with
    | input =>
      rcases h.drained hprocessing with hthrew | ⟨hinput, -⟩
      · exact .inl (List.mem_cons_of_mem _ hthrew)
      · simp [State.awake, hinput] at hawake
    | processing => exact .inl List.mem_cons_self

theorem Flow.not_threw (h : Flow host cfg s) (hgoes : s.processingTask ≠ .ended) :
    .processing ∉ s.failed := fun hmem => hgoes (h.threw hmem)

theorem Flow.threw_step (h : Flow host cfg s) (hx : Does host cfg s x s')
    (hthrew : .processing ∈ s'.failed) : s'.processingTask = .ended := by
  cases hx with
  | stops | idles | joins | opens | checks | leaves | receives | reads => exact h.threw hthrew
  | takesKill hphase hqueue => rfl
  | accepts hphase hqueue hcheck => exact absurd hthrew (h.not_threw (by simp [hphase]))
  | refuses hphase hqueue hcheck => exact absurd hthrew (h.not_threw (by simp [hphase]))
  | startsNot hphase hfailed => rfl
  | starts hphase hstarted => exact absurd hthrew (h.not_threw (by simp [hphase]))
  | sleeps hphase htimeout => exact absurd hthrew (h.not_threw (by simp [hphase]))
  | settles fate lines hphase hfate => exact absurd hthrew (h.not_threw (by simp [hphase]))
  | closes lines hphase => exact absurd hthrew (h.not_threw (by simp [hphase]))
  | fails hawake =>
    rename_i w
    cases w with
    | input => exact h.threw (List.mem_of_ne_of_mem (by simp) hthrew)
    | processing => rfl

theorem Flow.checked_step (h : Flow host cfg s) (hx : Does host cfg s x s')
    (icmd : InterventionCmd String) (action : InterventionAction)
    (hstarting : s'.processingTask = .starting icmd action) :
    InterventionConfig.checked host cfg icmd = some action := by
  cases hx with
  | stops | idles | joins | opens | checks | leaves | receives | refuses | reads =>
    exact h.checked icmd action hstarting
  | accepts hphase hqueue hcheck =>
    cases hstarting
    exact checked_of_check hcheck
  | closes lines hphase =>
    rename_i icmd' fromStderr answer
    cases fromStderr with
    | false => cases hstarting
    | true => cases hstarting
  | fails hawake =>
    rename_i w
    cases w with
    | input => exact h.checked icmd action hstarting
    | processing => cases hstarting
  | _ => cases hstarting

/-- The command that was checked is through, whatever comes of its start. -/
theorem Flow.through (h : Flow host cfg s) {r : Received} (hthrew : .processing ∉ s.failed) :
    processingTask host cfg (s.done ++ [r]) = s.executions ++ processingTask host cfg [r] := by
  rw [processingTask_append (h.goesOn hthrew), h.executed]

theorem Flow.executed_step (h : Flow host cfg s) (hx : Does host cfg s x s') :
    s'.executions = processingTask host cfg s'.done := by
  cases hx with
  | refuses hphase hqueue hcheck =>
    rename_i icmd rest line
    show s.executions = processingTask host cfg (s.done ++ [_])
    rw [h.through (h.not_threw (by simp [hphase])), processingTask_refused (checked_eq_none hcheck),
      List.append_nil]
  | startsNot hphase hfailed =>
    rename_i icmd action answer pid
    show s.executions = processingTask host cfg (s.done ++ [_])
    rw [h.through (h.not_threw (by simp [hphase])), processingTask_failed, List.append_nil]
  | starts hphase hstarted =>
    rename_i icmd action answer pid
    show s.executions ++ _ = processingTask host cfg (s.done ++ [_])
    rw [h.through (h.not_threw (by simp [hphase])),
      processingTask_started (h.checked _ _ hphase) hstarted]
  | fails hawake =>
    rename_i w
    cases w with
    | input => exact h.executed
    | processing =>
      cases hphase : s.processingTask with
      | starting icmd action =>
        show s.executions = processingTask host cfg (State.catchAll .processing s).done
        simp only [State.catchAll, hphase]
        rw [h.through (h.not_threw (by simp [hphase])), processingTask_failed, List.append_nil]
      | _ =>
        show s.executions = processingTask host cfg (State.catchAll .processing s).done
        simp only [State.catchAll, hphase]
        exact h.executed
  | _ => exact h.executed

theorem Flow.goesOn_step (h : Flow host cfg s) (hx : Does host cfg s x s')
    (hthrew : .processing ∉ s'.failed) : ∀ r ∈ s'.done, GoesOn host cfg r := by
  have hmore : ∀ r : Received, GoesOn host cfg r → .processing ∉ s.failed →
      ∀ q ∈ s.done ++ [r], GoesOn host cfg q := by
    intro r hr hnot q hq
    rcases List.mem_append.mp hq with hq | hq
    · exact h.goesOn hnot q hq
    · obtain rfl := List.mem_singleton.mp hq
      exact hr
  cases hx with
  | refuses hphase hqueue hcheck =>
    refine hmore _ ⟨rfl, fun hchecked => ?_⟩ hthrew
    rw [checked_eq_none hcheck] at hchecked
    cases hchecked
  | startsNot hphase hfailed => exact absurd List.mem_cons_self hthrew
  | starts hphase hstarted => exact hmore _ ⟨rfl, fun _ => hstarted⟩ hthrew
  | fails hawake =>
    rename_i w
    cases w with
    | input => exact h.goesOn fun hmem => hthrew (List.mem_cons_of_mem _ hmem)
    | processing => exact absurd List.mem_cons_self hthrew
  | _ => exact h.goesOn hthrew

theorem Flow.step (h : Flow host cfg s) (hx : step host cfg s x = some s') : Flow host cfg s' where
  kept := h.kept_step (does_of_step hx)
  order := h.order_step (does_of_step hx)
  asked := h.asked_step (does_of_step hx)
  drained := h.drained_step (does_of_step hx)
  threw := h.threw_step (does_of_step hx)
  checked := h.checked_step (does_of_step hx)
  executed := h.executed_step (does_of_step hx)
  goesOn := h.goesOn_step (does_of_step hx)

theorem Does.puts_eq (hx : Does host cfg s x s') (hreceive : ∀ datagram, x ≠ .receive datagram) :
    s'.puts = s.puts := by
  cases hx with
  | receives next cmds hphase hnext => exact absurd rfl (hreceive _)
  | fails hawake =>
    rename_i w
    cases w with
    | input => rfl
    | processing => rfl
  | _ => rfl

theorem puts_step (h : InterventionThreads.step host cfg s x = some s') :
    s'.puts = s.puts ++ arrived [x] := by
  cases x with
  | receive datagram =>
    simp only [InterventionThreads.step] at h
    unfold receiveStep at h
    split at h
    · cases h
      simp [arrived]
    · simp only at h
      split at h
      · rename_i hdecode
        cases h
        simp [arrived, hdecode]
      · rename_i icmd hdecode
        cases h
        simp [arrived, hdecode]
    · cases h
  | _ => simp [(does_of_step h).puts_eq (by simp), arrived]

end Commands

section Rest

/-- No thread can take a step that changes anything, exceptions aside. -/
def Quiescent (host : Host ρ) (cfg : InterventionConfig) (s : State) : Prop :=
  ∀ x s', (∀ w, x ≠ .fail w) → step host cfg s x = some s' → s' = s

theorem Quiescent.inputTask (h : Quiescent host cfg s) : s.inputTask = .ended := by
  cases hphase : s.inputTask with
  | ended => rfl
  | opening =>
    have hsame := h .input _ (by simp) (by simp only [step, inputStep, hphase]; rfl)
    simpa [hphase] using congrArg State.inputTask hsame
  | head =>
    have hsame := h .input _ (by simp) (by simp only [step, inputStep, hphase]; rfl)
    have hnext := congrArg State.inputTask hsame
    simp only [hphase] at hnext
    split at hnext <;> cases hnext
  | receiving =>
    have hsame := h (.receive none) _ (by simp) (by simp only [step, receiveStep, hphase]; rfl)
    simpa [hphase] using congrArg State.inputTask hsame
  | leaving =>
    have hsame := h .input _ (by simp) (by simp only [step, inputStep, hphase]; rfl)
    simpa [hphase] using congrArg State.inputTask hsame

theorem Quiescent.processingTask (h : Quiescent host cfg s) :
    s.processingTask = .ended ∨ s.queue = [] := by
  cases hphase : s.processingTask with
  | ended => exact .inl rfl
  | loop =>
    right
    cases hqueue : s.queue with
    | nil => rfl
    | cons e rest =>
      have htake : ∃ s', step host cfg s .take = some s' ∧ s'.queue = rest := by
        simp only [step, takeStep, hphase, hqueue]
        cases e.2 with
        | true => exact ⟨_, rfl, rfl⟩
        | false =>
          cases check host cfg e.1 with
          | ok action => exact ⟨_, rfl, rfl⟩
          | error line => exact ⟨_, rfl, rfl⟩
      obtain ⟨s', hstep, hrest⟩ := htake
      rw [h .take s' (by simp) hstep, hqueue] at hrest
      simpa using congrArg List.length hrest
  | starting icmd action =>
    have hsame := h (.start .reached 0) _ (by simp)
      (by simp only [step, startStep, hphase, Start.spawn]; rfl)
    simpa [hphase] using congrArg State.processingTask hsame
  | watching icmd action pid timeout =>
    have hsame := h (.poll (.ended none) (.ok ())) _ (by simp)
      (by simp only [step, pollStep, hphase]; rfl)
    simpa [hphase] using congrArg State.processingTask hsame
  | reading icmd fromStderr =>
    have hsame := h (.read (.bytes [])) _ (by simp) (by simp only [step, readStep, hphase]; rfl)
    have hnext := congrArg State.processingTask hsame
    cases fromStderr with
    | false => simp [hphase] at hnext
    | true => simp [hphase] at hnext

theorem Quiescent.main (h : Quiescent host cfg s) (hended : ∀ w, s.hasEnded w = true) :
    s.main = .joining [] := by
  cases hphase : s.main with
  | waiting =>
    have hsame := h .signal _ (by simp) (by simp only [step, hphase]; rfl)
    simpa [hphase, State.stop] using congrArg State.main hsame
  | joining ws =>
    cases ws with
    | nil => rfl
    | cons w ws =>
      have hsame := h .join { s with main := .joining ws } (by simp)
        (by simp only [step, hphase, hended w, if_true])
      have hnext : ws = w :: ws := by simpa [hphase] using congrArg State.main hsame
      simpa using congrArg List.length hnext

/-- Both threads have ended when nothing moves any more. -/
theorem Flow.ended (h : Flow host cfg s) (hquiet : Quiescent host cfg s) (w : Worker) :
    s.hasEnded w = true := by
  cases w with
  | input => simp [State.hasEnded, hquiet.inputTask]
  | processing =>
    have hprocessing : s.processingTask = .ended := by
      rcases hquiet.processingTask with hended | hempty
      · exact hended
      · by_contra hgoes
        obtain ⟨e, he, -⟩ := h.asked hquiet.inputTask hgoes
        rw [hempty] at he
        cases he
    simp [State.hasEnded, hprocessing]

/-- An action `block` with a time of two seconds. -/
def blockConfig : InterventionConfig where
  actions := [
    { name := "block", command := "/sbin/block.sh", regex := "(.*)", commandTimeout := 2 }]

/-- The command `block` with the argument `::1`. -/
def blockDatagram : Bytes :=
  [5, 0, 0, 0, 0, 0, 0, 0, 98, 108, 111, 99, 107, 3, 0, 0, 0, 0, 0, 0, 0, 58, 58, 49]

/-- The daemon is stopped while a program is running. -/
def stoppedRun : List Step :=
  [.input, .input, .receive (some blockDatagram), .take, .start .reached 7,
    .poll .running (.ok ()), .signal, .receive none, .input, .input,
    .poll (.ended (some 0)) (.ok ()), .read (.bytes [104, 105, 10]), .read (.bytes []),
    .read (.bytes []), .take, .join, .join]

end Rest

section Processes

/-- The descriptors of pipes that `processing_task` holds. -/
def ProcessingPhase.pipes : ProcessingPhase → ℕ
  | .watching .. => 2
  | .reading _ fromStderr => if fromStderr then 1 else 2
  | _ => 0

/-- How often `waitpid` may still be called for the process that is watched. -/
def State.pollsLeft (s : State) : ℕ :=
  match s.processingTask with
  | .watching _ action _ timeout => action.commandTimeout.toNat + 1 - timeout
  | _ => 0

def polls (steps : List Step) : ℕ :=
  steps.countP fun
    | .poll _ _ => true
    | _ => false

/-- The calls of `waitpid` that a command may need: one for each second of the timeout, and the one
behind it. -/
def patience (host : Host ρ) (cfg : InterventionConfig) (r : Received) : ℕ :=
  match checked host cfg r.icmd with
  | none => 0
  | some action => if r.spawn = .failed then 0 else action.commandTimeout.toNat + 1

/-- A process was started for the command. -/
def started (host : Host ρ) (cfg : InterventionConfig) (r : Received) : Bool :=
  (checked host cfg r.icmd).isSome && r.spawn ≠ .failed

/-- What `processing_task` leaves behind. A process is watched only while the task watches it, it is
left alone only by an exception that ended the task, and it is logged if it could not be killed. -/
structure Tidy (host : Host ρ) (cfg : InterventionConfig) (s : State) : Prop where
  pipes : .processing ∉ s.failed → s.pipes = s.processingTask.pipes
  settled : .watched ∉ s.processes.dropLast
  watched : .watched ∈ s.processes →
    ∃ icmd action pid timeout, s.processingTask = .watching icmd action pid timeout
  abandoned : .abandoned ∈ s.processes → .processing ∈ s.failed
  logged : ∀ what, .notKilled what ∈ s.processes →
    ∃ pid moment, killLog pid moment (.error what) ⊆ s.log
  timely : ∀ icmd action pid timeout, s.processingTask = .watching icmd action pid timeout →
    s.processes.getLast? = some .watched ∧ timeout ≤ action.commandTimeout.toNat
  counted : s.processes.length = s.done.countP (started host cfg)

theorem Tidy.initial : Tidy host cfg {} where
  pipes _ := rfl
  settled h := by cases h
  watched h := by cases h
  abandoned h := by cases h
  logged _ h := by cases h
  timely _ _ _ _ h := by cases h
  counted := rfl

/-- What a process comes to takes the place of its last entry. -/
theorem Tidy.processes_eq (h : Tidy host cfg s) {icmd : InterventionCmd String}
    {action : InterventionAction} {pid timeout : ℕ}
    (hphase : s.processingTask = .watching icmd action pid timeout) :
    s.processes = s.processes.dropLast ++ [Fate.watched] := by
  obtain ⟨hlast, -⟩ := h.timely _ _ _ _ hphase
  exact (List.dropLast_append_getLast? Fate.watched hlast).symm

theorem Tidy.pipes_step (h : Tidy host cfg s) (hx : Does host cfg s x s')
    (hthrew : .processing ∉ s'.failed) :
    s'.pipes = s'.processingTask.pipes := by
  cases hx with
  | stops | idles | joins | opens | checks | leaves | receives | reads => exact h.pipes hthrew
  | takesKill hphase hqueue | accepts hphase hqueue hcheck =>
    have hpipes := h.pipes hthrew
    rwa [hphase] at hpipes
  | refuses hphase hqueue hcheck => exact h.pipes hthrew
  | startsNot hphase hfailed => exact absurd List.mem_cons_self hthrew
  | starts hphase hstarted =>
    have hpipes := h.pipes hthrew
    rw [hphase] at hpipes
    show s.pipes + 2 = 2
    rw [hpipes]
    rfl
  | sleeps hphase htimeout | settles fate lines hphase hfate =>
    have hpipes := h.pipes hthrew
    rwa [hphase] at hpipes
  | closes lines hphase =>
    rename_i icmd fromStderr answer
    have hpipes := h.pipes hthrew
    rw [hphase] at hpipes
    show s.pipes - 1 = _
    rw [hpipes]
    cases fromStderr with
    | false => rfl
    | true => rfl
  | fails hawake =>
    rename_i w
    cases w with
    | input => exact h.pipes fun hmem => hthrew (List.mem_cons_of_mem _ hmem)
    | processing => exact absurd List.mem_cons_self hthrew

theorem Tidy.not_watched (h : Tidy host cfg s)
    (hphase : ∀ icmd action pid timeout, s.processingTask ≠ .watching icmd action pid timeout) :
    Fate.watched ∉ s.processes := by
  intro hmem
  obtain ⟨icmd, action, pid, timeout, hwatching⟩ := h.watched hmem
  exact hphase icmd action pid timeout hwatching

theorem Tidy.settled_step (h : Tidy host cfg s) (hx : Does host cfg s x s') :
    .watched ∉ s'.processes.dropLast := by
  cases hx with
  | starts hphase hstarted =>
    show Fate.watched ∉ (s.processes ++ [Fate.watched]).dropLast
    rw [List.dropLast_concat]
    exact h.not_watched (by simp [hphase])
  | settles fate lines hphase hfate =>
    show Fate.watched ∉ (s.processes.dropLast ++ [fate]).dropLast
    rw [List.dropLast_concat]
    exact h.settled
  | fails hawake =>
    rename_i w
    cases w with
    | input => exact h.settled
    | processing =>
      cases hphase : s.processingTask with
      | watching icmd action pid timeout =>
        simpa [State.catchAll, State.throws, State.settle, hphase] using h.settled
      | _ => simpa [State.catchAll, State.throws, hphase] using h.settled
  | _ => exact h.settled

theorem Tidy.watched_step (h : Tidy host cfg s) (hx : Does host cfg s x s')
    (hwatched : Fate.watched ∈ s'.processes) :
    ∃ icmd action pid timeout, s'.processingTask = .watching icmd action pid timeout := by
  cases hx with
  | stops | idles | joins | opens | checks | leaves | receives | refuses | reads =>
    exact h.watched hwatched
  | takesKill hphase hqueue => exact absurd hwatched (h.not_watched (by simp [hphase]))
  | accepts hphase hqueue hcheck => exact absurd hwatched (h.not_watched (by simp [hphase]))
  | startsNot hphase hfailed => exact absurd hwatched (h.not_watched (by simp [hphase]))
  | starts hphase hstarted => exact ⟨_, _, _, _, rfl⟩
  | sleeps hphase htimeout => exact ⟨_, _, _, _, rfl⟩
  | settles fate lines hphase hfate =>
    rcases List.mem_append.mp hwatched with hbefore | hlast
    · exact absurd hbefore h.settled
    · obtain rfl := List.mem_singleton.mp hlast
      exact hfate.elim
  | closes lines hphase => exact absurd hwatched (h.not_watched (by simp [hphase]))
  | fails hawake =>
    rename_i w
    cases w with
    | input => exact h.watched hwatched
    | processing =>
      exfalso
      cases hphase : s.processingTask with
      | watching icmd action pid timeout =>
        simp [State.catchAll, State.throws, State.settle, hphase, h.settled] at hwatched
      | _ =>
        simp only [State.catchAll, State.throws, hphase] at hwatched
        exact h.not_watched (by simp [hphase]) hwatched

/-- Only an exception leaves a process alone. -/
theorem Tidy.abandoned_step (h : Tidy host cfg s) (hx : Does host cfg s x s')
    (habandoned : Fate.abandoned ∈ s'.processes) : .processing ∈ s'.failed := by
  cases hx with
  | startsNot hphase hfailed => exact List.mem_cons_self
  | starts hphase hstarted =>
    rcases List.mem_append.mp habandoned with hbefore | hlast
    · exact h.abandoned hbefore
    · cases List.mem_singleton.mp hlast
  | settles fate lines hphase hfate =>
    rcases List.mem_append.mp habandoned with hbefore | hlast
    · exact h.abandoned (List.dropLast_subset _ hbefore)
    · obtain rfl := List.mem_singleton.mp hlast
      exact hfate.elim
  | fails hawake =>
    rename_i w
    cases w with
    | input => exact List.mem_cons_of_mem _ (h.abandoned habandoned)
    | processing => exact List.mem_cons_self
  | _ => exact h.abandoned habandoned

/-- What is logged stays logged. -/
theorem Tidy.logged_append (h : Tidy host cfg s) (lines : List (Level × String)) {what : String}
    (hmem : Fate.notKilled what ∈ s.processes) :
    ∃ pid moment, killLog pid moment (.error what) ⊆ s.log ++ lines := by
  obtain ⟨pid, moment, hlogged⟩ := h.logged what hmem
  exact ⟨pid, moment, List.subset_append_of_subset_left lines hlogged⟩

theorem Tidy.logged_step (h : Tidy host cfg s) (hx : Does host cfg s x s') (what : String)
    (hmem : Fate.notKilled what ∈ s'.processes) :
    ∃ pid moment, killLog pid moment (.error what) ⊆ s'.log := by
  cases hx with
  | refuses hphase hqueue hcheck => exact h.logged_append _ hmem
  | starts hphase hstarted =>
    rcases List.mem_append.mp hmem with hbefore | hlast
    · exact h.logged what hbefore
    · cases List.mem_singleton.mp hlast
  | settles fate lines hphase hfate =>
    rcases List.mem_append.mp hmem with hbefore | hlast
    · exact h.logged_append lines (List.dropLast_subset _ hbefore)
    · obtain rfl := List.mem_singleton.mp hlast
      obtain ⟨moment, hlogged⟩ := hfate
      exact ⟨_, moment, List.subset_append_of_subset_right s.log hlogged⟩
  | reads lines hphase => exact h.logged_append lines hmem
  | closes lines hphase => exact h.logged_append lines hmem
  | fails hawake =>
    rename_i w
    cases w with
    | input => exact h.logged what hmem
    | processing =>
      apply h.logged what
      cases hphase : s.processingTask with
      | watching icmd action pid timeout =>
        simp only [State.catchAll, State.throws, State.settle, hphase, List.mem_append,
          List.mem_singleton, reduceCtorEq, or_false] at hmem
        exact List.dropLast_subset _ hmem
      | _ => simpa [State.catchAll, State.throws, hphase] using hmem
  | _ => exact h.logged what hmem

theorem Tidy.timely_step (h : Tidy host cfg s) (hx : Does host cfg s x s')
    (icmd : InterventionCmd String) (action : InterventionAction) (pid timeout : ℕ)
    (hwatching : s'.processingTask = .watching icmd action pid timeout) :
    s'.processes.getLast? = some .watched ∧ timeout ≤ action.commandTimeout.toNat := by
  cases hx with
  | stops | idles | joins | opens | checks | leaves | receives | refuses | reads =>
    exact h.timely _ _ _ _ hwatching
  | starts hphase hstarted =>
    cases hwatching
    exact ⟨by simp, Nat.zero_le _⟩
  | sleeps hphase htimeout =>
    cases hwatching
    exact ⟨(h.timely _ _ _ _ hphase).1, htimeout⟩
  | closes lines hphase =>
    rename_i icmd' fromStderr answer
    cases fromStderr with
    | false => cases hwatching
    | true => cases hwatching
  | fails hawake =>
    rename_i w
    cases w with
    | input => exact h.timely _ _ _ _ hwatching
    | processing => cases hwatching
  | _ => cases hwatching

theorem Tidy.counted_step (h : Tidy host cfg s) (hflow : Flow host cfg s)
    (hx : Does host cfg s x s') : s'.processes.length = s'.done.countP (started host cfg) := by
  have hcounted := h.counted
  cases hx with
  | refuses hphase hqueue hcheck =>
    simpa [started, checked_eq_none hcheck] using hcounted
  | startsNot hphase hfailed => simpa [started, State.throws] using hcounted
  | starts hphase hstarted =>
    simpa [started, hflow.checked _ _ hphase, hstarted] using hcounted
  | settles fate lines hphase hfate =>
    rw [h.processes_eq hphase] at hcounted
    simpa [State.settle] using hcounted
  | fails hawake =>
    rename_i w
    cases w with
    | input => exact hcounted
    | processing =>
      cases hphase : s.processingTask with
      | starting icmd action =>
        simpa [State.catchAll, State.throws, hphase, started] using hcounted
      | watching icmd action pid timeout =>
        rw [h.processes_eq hphase] at hcounted
        simpa [State.catchAll, State.throws, State.settle, hphase] using hcounted
      | _ => simpa [State.catchAll, State.throws, hphase] using hcounted
  | _ => exact hcounted

theorem Tidy.step (h : Tidy host cfg s) (hflow : Flow host cfg s)
    (hx : step host cfg s x = some s') : Tidy host cfg s' where
  pipes := h.pipes_step (does_of_step hx)
  settled := h.settled_step (does_of_step hx)
  watched := h.watched_step (does_of_step hx)
  abandoned := h.abandoned_step (does_of_step hx)
  logged := h.logged_step (does_of_step hx)
  timely := h.timely_step (does_of_step hx)
  counted := h.counted_step hflow (does_of_step hx)

@[simp] theorem polls_append (steps more : List Step) :
    polls (steps ++ more) = polls steps + polls more := List.countP_append

theorem Tidy.polls_step (h : Tidy host cfg s) (hflow : Flow host cfg s)
    (hx : Does host cfg s x s') : polls [x] + s'.pollsLeft + (s.done.map (patience host cfg)).sum ≤
      s.pollsLeft + (s'.done.map (patience host cfg)).sum := by
  cases hx with
  | stops errors hwhich hmain =>
    rcases hwhich with rfl | rfl
    · simp [polls, State.pollsLeft, State.stop]
    · simp [polls, State.pollsLeft, State.stop]
  | startsNot hphase hfailed => simp [polls, State.pollsLeft, hphase]
  | starts hphase hstarted =>
    simp [polls, State.pollsLeft, hphase, patience, hflow.checked _ _ hphase, hstarted]
    omega
  | sleeps hphase htimeout =>
    simp [polls, State.pollsLeft, hphase]
    omega
  | settles fate lines hphase hfate =>
    obtain ⟨-, htimeout⟩ := h.timely _ _ _ _ hphase
    simp [polls, State.pollsLeft, State.settle, hphase]
    omega
  | closes lines hphase =>
    rename_i icmd fromStderr answer
    cases fromStderr with
    | false => simp [polls, State.pollsLeft, hphase]
    | true => simp [polls, State.pollsLeft, hphase]
  | fails hawake =>
    rename_i w
    cases w with
    | input => simp [polls, State.pollsLeft, State.catchAll, State.throws]
    | processing =>
      cases hphase : s.processingTask with
      | starting icmd action =>
        simp [polls, State.pollsLeft, State.catchAll, State.throws, hphase]
      | _ => simp [polls, State.pollsLeft, State.catchAll, State.throws, hphase]
  | idles hmain | joins hmain hended | opens hphase | checks hphase | leaves hphase =>
    simp [polls, State.pollsLeft]
  | receives next cmds hphase hnext => simp [polls, State.pollsLeft]
  | takesKill hphase hqueue => simp [polls, State.pollsLeft, hphase]
  | accepts hphase hqueue hcheck => simp [polls, State.pollsLeft, hphase]
  | refuses hphase hqueue hcheck => simp [polls, State.pollsLeft, hphase]
  | reads lines hphase => simp [polls, State.pollsLeft, hphase]

/-- In every run, a process was started for each command that passed the checks and whose start did
not fail. All of them but for the one that is watched have been reaped or killed, or it is logged
that they could not be killed, after as many calls of `waitpid` as their timeouts allow; and the
pipes are closed as soon as they are read. Only an exception that ends `processing_task` leaves a
process alone, or a pipe open. -/
theorem processes_settled (steps : List Step) (h : run host cfg steps = some s) :
    Tidy host cfg s ∧
      polls steps + s.pollsLeft ≤ (s.done.map (patience host cfg)).sum := by
  have hall : Flow host cfg s ∧ Tidy host cfg s ∧
      polls steps + s.pollsLeft ≤ (s.done.map (patience host cfg)).sum := by
    induction steps using List.reverseRecOn generalizing s with
    | nil =>
      cases h
      exact ⟨.initial, .initial, Nat.le_refl 0⟩
    | append_singleton steps x ih =>
      obtain ⟨u, hu, hx⟩ := runSteps_concat.mp h
      obtain ⟨hflow, htidy, hpolls⟩ := ih hu
      have hstep := htidy.polls_step hflow (does_of_step hx)
      refine ⟨hflow.step hx, htidy.step hflow hx, ?_⟩
      rw [polls_append]
      omega
  exact hall.2

/-- A program runs longer than its two seconds and cannot be killed, and the next one is watched
when an exception ends `processing_task`. -/
def unkilledRun : List Step :=
  [.input, .input, .receive (some blockDatagram), .receive (some blockDatagram), .take,
    .start .reached 7, .poll .running (.ok ()), .poll .running (.ok ()),
    .poll .running (.error "Operation not permitted"), .read (.bytes []), .read (.bytes []), .take,
    .start .reached 8, .poll .running (.ok ()), .fail .processing]

theorem processes_settled_unkilledRun : ∃ s, run plainHost blockConfig unkilledRun = some s ∧
    s.processes = [.notKilled "Operation not permitted", .abandoned] ∧
      Tidy plainHost blockConfig s ∧
        4 + s.pollsLeft ≤ (s.done.map (patience plainHost blockConfig)).sum := by
  have hview : (run plainHost blockConfig unkilledRun).map (·.processes) =
      some [.notKilled "Operation not permitted", .abandoned] := by decide +kernel
  obtain ⟨s, hs, hprocesses⟩ := Option.map_eq_some_iff.mp hview
  obtain ⟨htidy, hpolls⟩ := processes_settled unkilledRun hs
  have hfour : polls unkilledRun = 4 := by decide +kernel
  rw [hfour] at hpolls
  exact ⟨s, hs, hprocesses, htidy, hpolls⟩

end Processes

end Ctguard.InterventionThreads
