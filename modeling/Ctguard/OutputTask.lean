import Ctguard.Messages
import Ctguard.StepRuns
import Mathlib.Data.Multiset.AddSub

/-!
# Forwarding with a local queue

The `output_task` of the log scanner, that of the disk scanner and the `intervention_task`
of the research daemon take from a queue and send to a sink. What can not be sent waits in
a local queue, which is drained when the queue times out and at shutdown. A run lists, in
order, what other threads put into the queue, what the task takes or waits for in vain,
and how its sends end.
-/

namespace Ctguard

/-- `intervention_t`, an element of the queue of interventions. -/
structure Intervention where
  name : String
  argument : String
  kill : Bool
  deriving DecidableEq, Repr

inductive LogLevel where
  | error
  | warning
  deriving DecidableEq, Repr

/-- What the output tasks differ in: the elements of the queue and what is sent of them,
and two words of the messages. -/
structure OutputTask (ι ε : Type) where
  isKill : ι → Bool
  forwarded : ι → ε
  one : String
  many : String

namespace OutputTask

def logscan : OutputTask SourceEvent SourceEvent where
  isKill se := se.controlMessage && se.message = "!KILL"
  forwarded := id
  one := "message"
  many := "events"

def diskscan : OutputTask SourceEvent SourceEvent where
  isKill se := se.controlMessage && se.message = "!KILL"
  forwarded := id
  one := "message"
  many := "events"

def intervention : OutputTask Intervention (InterventionCmd String) where
  isKill i := i.kill
  forwarded i := { name := i.name, argument := i.argument }
  one := "intervention"
  many := "interventions"

/-- At the head of the loop, in one of the two loops over the local queue, or returned. -/
inductive Phase where
  | loop
  | interval
  | shutdown
  | ended
  deriving DecidableEq, Repr

/-- The queue and the task. Elements are numbered in the order in which they were put into
the queue. What was taken and what reached the sink is kept. -/
structure State (ι ε : Type) where
  queue : List (ℕ × ι) := []
  puts : ℕ := 0
  phase : Phase := .loop
  localQueue : List (ℕ × ε) := []
  sendErrorMsg : Bool := false
  taken : List (ℕ × ε) := []
  delivered : List (ℕ × ε) := []
  log : List (LogLevel × String) := []

/-- A send returns or throws an exception with a text. -/
abbrev Sent := Except String Unit

inductive Step (ι : Type) where
  | emplace (x : ι)
  | take (sent : Sent)
  | timeout
  | resend (sent : Sent)

variable {ι ε : Type} (t : OutputTask ι ε)

def discarding (n : ℕ) : LogLevel × String :=
  (.warning, "Discarding " ++ toString n ++ " " ++ t.many ++ " at shutdown due to sending errors")

def cannotForward (moment what : String) : LogLevel × String :=
  (.error, "Can not forward " ++ t.one ++ " " ++ moment ++ ": " ++ what)

/-- The end of a loop over the local queue. -/
def leave (s : State ι ε) : State ι ε :=
  if s.phase = .shutdown then
    { s with
      phase := .ended
      log := if s.localQueue.isEmpty then s.log
        else s.log ++ [t.discarding s.localQueue.length] }
  else { s with phase := .loop }

/-- The head of a loop over the local queue. -/
def drain (phase : Phase) (s : State ι ε) : State ι ε :=
  if s.localQueue.isEmpty then t.leave { s with phase := phase } else { s with phase := phase }

/-- The direct send of an event that was just taken. -/
def forward (e : ℕ × ε) (sent : Sent) (s : State ι ε) : State ι ε :=
  let s := { s with taken := s.taken ++ [e] }
  match sent with
  | .ok () => { s with delivered := s.delivered ++ [e], sendErrorMsg := false }
  | .error what => { s with
      localQueue := s.localQueue ++ [e]
      sendErrorMsg := true
      log := if s.sendErrorMsg then s.log else s.log ++ [t.cannotForward "in realtime" what] }

/-- The send of the front of the local queue. -/
def resend (moment : String) (sent : Sent) (e : ℕ × ε) (rest : List (ℕ × ε)) (s : State ι ε) :
    State ι ε :=
  match sent with
  | .ok () => t.drain s.phase { s with localQueue := rest, delivered := s.delivered ++ [e] }
  | .error what => t.leave { s with log := s.log ++ [t.cannotForward moment what] }

def step (s : State ι ε) : Step ι → Option (State ι ε)
  | .emplace x => some { s with queue := s.queue ++ [(s.puts, x)], puts := s.puts + 1 }
  | .take sent =>
    match s.phase, s.queue with
    | .loop, (n, x) :: rest =>
      let s := { s with queue := rest }
      some (if t.isKill x then t.drain .shutdown s else t.forward (n, t.forwarded x) sent s)
    | _, _ => none
  | .timeout =>
    match s.phase, s.queue with
    | .loop, [] => some (t.drain .interval s)
    | _, _ => none
  | .resend sent =>
    match s.phase, s.localQueue with
    | .interval, e :: rest => some (t.resend "at interval" sent e rest s)
    | .shutdown, e :: rest => some (t.resend "at shutdown" sent e rest s)
    | _, _ => none

/-- The state after some steps from the start of the task. -/
abbrev run (steps : List (Step ι)) : Option (State ι ε) := runSteps t.step {} steps

/-- The warnings in the log. -/
def State.warnings (s : State ι ε) : List (LogLevel × String) :=
  s.log.filter (·.1 = .warning)

/-- What a step does, by the branch it takes. -/
inductive Does (s : State ι ε) : Step ι → State ι ε → Prop where
  | emplace (x : ι) :
      Does s (.emplace x) { s with queue := s.queue ++ [(s.puts, x)], puts := s.puts + 1 }
  | kill {n : ℕ} {x : ι} {rest : List (ℕ × ι)} (sent : Sent) (hphase : s.phase = .loop)
      (hqueue : s.queue = (n, x) :: rest) (hkill : t.isKill x = true) :
      Does s (.take sent) (t.drain .shutdown { s with queue := rest })
  | direct {n : ℕ} {x : ι} {rest : List (ℕ × ι)} (hphase : s.phase = .loop)
      (hqueue : s.queue = (n, x) :: rest) (hkill : t.isKill x = false) :
      Does s (.take (.ok ())) { s with
        queue := rest
        taken := s.taken ++ [(n, t.forwarded x)]
        delivered := s.delivered ++ [(n, t.forwarded x)]
        sendErrorMsg := false }
  | keep {n : ℕ} {x : ι} {rest : List (ℕ × ι)} (what : String) (hphase : s.phase = .loop)
      (hqueue : s.queue = (n, x) :: rest) (hkill : t.isKill x = false) :
      Does s (.take (.error what)) { s with
        queue := rest
        taken := s.taken ++ [(n, t.forwarded x)]
        localQueue := s.localQueue ++ [(n, t.forwarded x)]
        sendErrorMsg := true
        log := if s.sendErrorMsg then s.log
          else s.log ++ [t.cannotForward "in realtime" what] }
  | timeout (hphase : s.phase = .loop) (hqueue : s.queue = []) :
      Does s .timeout (t.drain .interval s)
  | resent {e : ℕ × ε} {rest : List (ℕ × ε)} (hphase : s.phase = .interval ∨ s.phase = .shutdown)
      (hlocal : s.localQueue = e :: rest) :
      Does s (.resend (.ok ()))
        (t.drain s.phase { s with localQueue := rest, delivered := s.delivered ++ [e] })
  | failed (moment what : String) (hphase : s.phase = .interval ∨ s.phase = .shutdown)
      (hlocal : s.localQueue ≠ []) :
      Does s (.resend (.error what))
        (t.leave { s with log := s.log ++ [t.cannotForward moment what] })

variable {t} {s s' : State ι ε}

theorem does_of_step {x : Step ι} (h : t.step s x = some s') : t.Does s x s' := by
  cases x with
  | emplace x =>
    obtain rfl := Option.some.inj h
    exact .emplace x
  | take sent =>
    simp only [step] at h
    split at h
    · rename_i n x rest hphase hqueue
      obtain rfl := Option.some.inj h
      cases hkill : t.isKill x with
      | true => exact .kill sent hphase hqueue hkill
      | false =>
        cases sent with
        | ok u => exact .direct hphase hqueue hkill
        | error what => exact .keep what hphase hqueue hkill
    · cases h
  | timeout =>
    simp only [step] at h
    split at h
    · rename_i hphase hqueue
      obtain rfl := Option.some.inj h
      exact .timeout hphase hqueue
    · cases h
  | resend sent =>
    simp only [step] at h
    split at h
    · rename_i e rest hphase hlocal
      obtain rfl := Option.some.inj h
      cases sent with
      | ok u => exact .resent (.inl hphase) hlocal
      | error what => exact .failed "at interval" what (.inl hphase) (by simp [hlocal])
    · rename_i e rest hphase hlocal
      obtain rfl := Option.some.inj h
      cases sent with
      | ok u => exact .resent (.inr hphase) hlocal
      | error what => exact .failed "at shutdown" what (.inr hphase) (by simp [hlocal])
    · cases h

section Frame

/-- Leaving and entering the loops over the local queue moves no event. -/
structure SameEvents (s s' : State ι ε) : Prop where
  queue : s'.queue = s.queue
  puts : s'.puts = s.puts
  localQueue : s'.localQueue = s.localQueue
  taken : s'.taken = s.taken
  delivered : s'.delivered = s.delivered

theorem leave_sameEvents (s : State ι ε) : SameEvents s (t.leave s) := by
  unfold leave
  split <;> constructor <;> rfl

theorem drain_sameEvents (phase : Phase) (s : State ι ε) : SameEvents s (t.drain phase s) := by
  unfold drain
  split
  · have h := leave_sameEvents (t := t) { s with phase := phase }
    exact ⟨h.queue, h.puts, h.localQueue, h.taken, h.delivered⟩
  · constructor <;> rfl

end Frame

/-- The numbers of what was taken and of what still waits in the queue. -/
def State.numbers (s : State ι ε) : List ℕ := s.taken.map Prod.fst ++ s.queue.map Prod.fst

/-- Events are taken in the order of their numbers; each that was taken has reached the
sink or waits, in order, in the local queue. -/
structure Balanced (s : State ι ε) : Prop where
  sorted : s.numbers.Pairwise (· < ·)
  below : ∀ n ∈ s.numbers, n < s.puts
  waiting : s.localQueue.Sublist s.taken
  balance : s.taken.Perm (s.delivered ++ s.localQueue)

theorem Balanced.congr (h : Balanced s) (hsame : SameEvents s s') : Balanced s' := by
  have hnumbers : s'.numbers = s.numbers := by
    rw [State.numbers, State.numbers, hsame.taken, hsame.queue]
  constructor
  · rw [hnumbers]
    exact h.sorted
  · rw [hnumbers, hsame.puts]
    exact h.below
  · rw [hsame.localQueue, hsame.taken]
    exact h.waiting
  · rw [hsame.taken, hsame.delivered, hsame.localQueue]
    exact h.balance

/-- The front of the queue has a larger number than everything taken before. -/
theorem Balanced.front {n : ℕ} {x : ι} {rest : List (ℕ × ι)} (h : Balanced s)
    (hqueue : s.queue = (n, x) :: rest) : ∀ e ∈ s.taken, e.1 < n := by
  intro e he
  have hsorted := h.sorted
  rw [State.numbers, hqueue, List.pairwise_append] at hsorted
  exact hsorted.2.2 e.1 (List.mem_map_of_mem he) n (by simp)

/-- Taking the front moves its number from the queue to what was taken. -/
theorem numbers_take {n : ℕ} {x : ι} {e : ε} {rest : List (ℕ × ι)}
    (hqueue : s.queue = (n, x) :: rest) :
    (s.taken ++ [(n, e)]).map Prod.fst ++ rest.map Prod.fst = s.numbers := by
  simp [State.numbers, hqueue]

theorem Balanced.step (h : Balanced s) {x : Step ι} (hstep : t.step s x = some s') :
    Balanced s' := by
  cases does_of_step hstep with
  | emplace x =>
    have hnumbers : s.taken.map Prod.fst ++ (s.queue ++ [(s.puts, x)]).map Prod.fst =
        s.numbers ++ [s.puts] := by simp [State.numbers]
    constructor
    · rw [State.numbers, hnumbers, List.pairwise_append]
      refine ⟨h.sorted, List.pairwise_singleton _ _, ?_⟩
      intro n hn m hm
      rw [List.mem_singleton.mp hm]
      exact h.below n hn
    · rw [State.numbers, hnumbers]
      intro n hn
      rcases List.mem_append.mp hn with hold | hnew
      · exact (h.below n hold).trans (Nat.lt_succ_self _)
      · rw [List.mem_singleton.mp hnew]
        exact Nat.lt_succ_self _
    · exact h.waiting
    · exact h.balance
  | @kill n x rest sent hphase hqueue hkill =>
    have hsub : (s.taken.map Prod.fst ++ rest.map Prod.fst).Sublist s.numbers := by
      rw [State.numbers, hqueue]
      exact List.Sublist.append_left (List.sublist_cons_self _ _) _
    have hrest : Balanced { s with queue := rest } :=
      ⟨h.sorted.sublist hsub, fun m hm => h.below m (hsub.subset hm), h.waiting, h.balance⟩
    exact hrest.congr (drain_sameEvents .shutdown _)
  | direct hphase hqueue hkill =>
    constructor
    · rw [State.numbers, numbers_take hqueue]
      exact h.sorted
    · rw [State.numbers, numbers_take hqueue]
      exact h.below
    · exact h.waiting.trans (List.sublist_append_left _ _)
    · apply (h.balance.append_right _).trans
      rw [List.append_assoc, List.append_assoc]
      exact List.perm_append_comm.append_left s.delivered
  | keep what hphase hqueue hkill =>
    constructor
    · rw [State.numbers, numbers_take hqueue]
      exact h.sorted
    · rw [State.numbers, numbers_take hqueue]
      exact h.below
    · exact h.waiting.append (List.Sublist.refl _)
    · rw [← List.append_assoc]
      exact h.balance.append_right _
  | timeout hphase hqueue => exact h.congr (drain_sameEvents .interval s)
  | @resent e rest hphase hlocal =>
    have hmoved : Balanced { s with localQueue := rest, delivered := s.delivered ++ [e] } := by
      refine ⟨h.sorted, h.below, ?_, ?_⟩
      · exact (List.sublist_cons_self e rest).trans (hlocal ▸ h.waiting)
      · have hbalance := h.balance
        rw [hlocal] at hbalance
        simpa using hbalance
    exact hmoved.congr (drain_sameEvents _ _)
  | failed moment what hphase hlocal =>
    have hlogged : Balanced { s with log := s.log ++ [t.cannotForward moment what] } :=
      ⟨h.sorted, h.below, h.waiting, h.balance⟩
    exact hlogged.congr (leave_sameEvents _)

theorem balanced_init : Balanced ({} : State ι ε) := by
  constructor <;> simp [State.numbers]

theorem balanced_run {steps : List (Step ι)} (h : t.run steps = some s) : Balanced s :=
  runSteps_invariant (fun hs hx => hs.step hx) balanced_init h

theorem Balanced.nodup_delivered (h : Balanced s) : (s.delivered.map Prod.fst).Nodup := by
  have htaken : (s.taken.map Prod.fst).Nodup :=
    (List.pairwise_append.mp h.sorted).1.imp (fun hlt => hlt.ne)
  have hboth : ((s.delivered ++ s.localQueue).map Prod.fst).Nodup :=
    (h.balance.map Prod.fst).nodup_iff.mp htaken
  rw [List.map_append] at hboth
  exact hboth.of_append_left

section Stopping

/-- The task has not come to a kill message. -/
def Phase.reads : Phase → Bool
  | .loop => true
  | .interval => true
  | _ => false

/-- A kill message waits in the queue. -/
def KillWaits (t : OutputTask ι ε) (queue : List (ℕ × ι)) : Prop :=
  ∃ e ∈ queue, t.isKill e.2 = true

/-- The loops over the local queue end when it is empty. -/
def State.Busy (s : State ι ε) : Prop :=
  s.phase = .interval ∨ s.phase = .shutdown → s.localQueue ≠ []

theorem phase_leave (s : State ι ε) :
    (t.leave s).phase = if s.phase = .shutdown then .ended else .loop := by
  rw [leave]
  split <;> rfl

theorem phase_drain (phase : Phase) (s : State ι ε) : (t.drain phase s).phase =
    if s.localQueue.isEmpty then if phase = .shutdown then .ended else .loop else phase := by
  rw [drain]
  split
  · rw [phase_leave]
  · rfl

theorem busy_leave (s : State ι ε) : (t.leave s).Busy := by
  intro hphase
  rw [phase_leave] at hphase
  split at hphase <;> simp at hphase

theorem busy_drain (phase : Phase) (s : State ι ε) : (t.drain phase s).Busy := by
  rw [drain]
  split
  · exact busy_leave _
  · rename_i hlocal
    exact fun _ => by simpa using hlocal

theorem busy_step (h : s.Busy) {x : Step ι} (hstep : t.step s x = some s') : s'.Busy := by
  cases does_of_step hstep with
  | emplace x => exact h
  | kill sent hphase hqueue hkill => exact busy_drain _ _
  | direct hphase hqueue hkill => exact h
  | keep what hphase hqueue hkill => exact fun hloop => by simp [hphase] at hloop
  | timeout hphase hqueue => exact busy_drain _ _
  | resent hphase hlocal => exact busy_drain _ _
  | failed moment what hphase hlocal => exact busy_leave _

theorem reads_leave (s : State ι ε) (hphase : s.phase = .interval ∨ s.phase = .shutdown) :
    (t.leave s).phase.reads = s.phase.reads := by
  rw [phase_leave]
  rcases hphase with hphase | hphase <;> simp [hphase, Phase.reads]

theorem reads_drain {phase : Phase} (s : State ι ε)
    (hphase : phase = .interval ∨ phase = .shutdown) :
    (t.drain phase s).phase.reads = phase.reads := by
  rw [phase_drain]
  rcases hphase with rfl | rfl <;> split <;> rfl

/-- The task stops reading when it takes a kill message, and takes each message once. -/
theorem reads_step {x : Step ι} (hx : ∀ i, x ≠ .emplace i) (hstep : t.step s x = some s') :
    (s'.phase.reads = s.phase.reads ∧ (KillWaits t s'.queue ↔ KillWaits t s.queue)) ∨
      (s'.phase.reads = false ∧ KillWaits t s.queue) := by
  have hskip : ∀ {n : ℕ} {i : ι} {rest : List (ℕ × ι)}, s.queue = (n, i) :: rest →
      t.isKill i = false → (KillWaits t rest ↔ KillWaits t s.queue) := by
    intro n i rest hqueue hkill
    rw [hqueue]
    simp [KillWaits, hkill]
  cases does_of_step hstep with
  | emplace i => exact absurd rfl (hx i)
  | kill sent hphase hqueue hkill =>
    refine .inr ⟨?_, _, hqueue ▸ List.mem_cons_self, hkill⟩
    exact reads_drain _ (.inr rfl)
  | direct hphase hqueue hkill => exact .inl ⟨rfl, hskip hqueue hkill⟩
  | keep what hphase hqueue hkill => exact .inl ⟨rfl, hskip hqueue hkill⟩
  | timeout hphase hqueue =>
    have hreads := reads_drain (t := t) s (.inl rfl : Phase.interval = .interval ∨ _)
    rw [(drain_sameEvents .interval s).queue, hreads, hphase]
    exact .inl ⟨rfl, Iff.rfl⟩
  | @resent e rest hphase hlocal =>
    rw [(drain_sameEvents s.phase _).queue, reads_drain _ hphase]
    exact .inl ⟨rfl, Iff.rfl⟩
  | failed moment what hphase hlocal =>
    have hreads := reads_leave (t := t)
      { s with log := s.log ++ [t.cannotForward moment what] } hphase
    rw [(leave_sameEvents _).queue, hreads]
    exact .inl ⟨rfl, Iff.rfl⟩

theorem take_ne_self (hphase : s.phase = .loop) (hqueue : s.queue ≠ []) :
    ∃ s', t.step s (.take (.ok ())) = some s' ∧ s' ≠ s := by
  obtain ⟨e, rest, hcons⟩ := List.exists_cons_of_ne_nil hqueue
  refine ⟨_, by rw [step, hphase, hcons], ?_⟩
  intro heq
  have hrest : rest = s.queue := by
    rw [← congrArg State.queue heq]
    split
    · rw [(drain_sameEvents .shutdown _).queue]
    · rfl
  simpa [hcons] using congrArg List.length hrest

theorem resend_ne_self (hphase : s.phase = .interval ∨ s.phase = .shutdown)
    (hlocal : s.localQueue ≠ []) : ∃ s', t.step s (.resend (.ok ())) = some s' ∧ s' ≠ s := by
  obtain ⟨e, rest, hcons⟩ := List.exists_cons_of_ne_nil hlocal
  let s' := t.drain s.phase { s with localQueue := rest, delivered := s.delivered ++ [e] }
  have hstep : t.step s (.resend (.ok ())) = some s' := by
    rcases hphase with hphase | hphase <;> simp [step, hphase, hcons, resend, s']
  refine ⟨s', hstep, fun heq => ?_⟩
  have hrest : rest = s.localQueue := by
    rw [← congrArg State.localQueue heq, (drain_sameEvents s.phase _).localQueue]
  simpa [hcons] using congrArg List.length hrest

/-- A task that can do nothing but wait has ended or waits for an empty queue. -/
theorem idle_cases (hbusy : s.Busy) (hidle : ∀ x s', (∀ i, x ≠ .emplace i) →
    t.step s x = some s' → s' = s) :
    s.phase = .ended ∨ (s.phase = .loop ∧ s.queue = []) := by
  have hloop : s.phase = .loop → s.queue = [] := by
    intro hphase
    by_contra hqueue
    obtain ⟨s', hstep, hne⟩ := take_ne_self (t := t) hphase hqueue
    exact hne (hidle _ s' (by simp) hstep)
  have hnot : ¬ (s.phase = .interval ∨ s.phase = .shutdown) := by
    intro hphase
    obtain ⟨s', hstep, hne⟩ := resend_ne_self (t := t) hphase (hbusy hphase)
    exact hne (hidle _ s' (by simp) hstep)
  cases hphase : s.phase with
  | ended => exact .inl rfl
  | loop => exact .inr ⟨rfl, hloop hphase⟩
  | interval => exact absurd (.inl hphase) hnot
  | shutdown => exact absurd (.inr hphase) hnot

end Stopping

/-- The task warns once, when it returns, if events are still waiting. -/
def Warned (t : OutputTask ι ε) (s : State ι ε) : Prop :=
  s.warnings =
    if s.phase = .ended ∧ s.localQueue.isEmpty = false then [t.discarding s.localQueue.length]
    else []

theorem Warned.none (h : Warned t s) (hphase : s.phase ≠ .ended) : s.warnings = [] := by
  rw [h, if_neg (fun hended => hphase hended.1)]

theorem warned_of_phase (hphase : s.phase ≠ .ended) (h : s.warnings = []) : Warned t s := by
  rw [Warned, if_neg (fun hended => hphase hended.1), h]

theorem warned_leave (h : s.warnings = []) : Warned t (t.leave s) := by
  unfold leave
  split
  · cases hlocal : s.localQueue.isEmpty with
    | true => simpa [Warned, State.warnings, hlocal] using h
    | false =>
      have hlog : s.log.filter (·.1 = .warning) = [] := h
      simp [Warned, State.warnings, hlocal, hlog, discarding]
  · exact warned_of_phase (by simp) h

theorem warned_drain {phase : Phase} (hphase : phase ≠ .ended) (h : s.warnings = []) :
    Warned t (t.drain phase s) := by
  unfold drain
  split
  · exact warned_leave h
  · exact warned_of_phase hphase h

@[simp] theorem warnings_cannotForward (log : List (LogLevel × String)) (moment what : String) :
    (log ++ [t.cannotForward moment what]).filter (·.1 = .warning) =
      log.filter (·.1 = .warning) := by
  simp [cannotForward]

theorem Warned.step (h : Warned t s) {x : Step ι} (hstep : t.step s x = some s') :
    Warned t s' := by
  cases does_of_step hstep with
  | emplace x => exact h
  | kill sent hphase hqueue hkill =>
    exact warned_drain (by simp) (h.none (by simp [hphase]))
  | direct hphase hqueue hkill =>
    exact warned_of_phase (by simp [hphase]) (h.none (by simp [hphase]))
  | keep what hphase hqueue hkill =>
    have hnone := h.none (by simp [hphase])
    apply warned_of_phase (by simp [hphase])
    rw [State.warnings] at hnone ⊢
    split
    · exact hnone
    · rw [warnings_cannotForward, hnone]
  | timeout hphase hqueue => exact warned_drain (by simp) (h.none (by simp [hphase]))
  | resent hphase hlocal =>
    have hnot : s.phase ≠ .ended := by rcases hphase with hp | hp <;> simp [hp]
    exact warned_drain hnot (h.none hnot)
  | failed moment what hphase hlocal =>
    have hnot : s.phase ≠ .ended := by rcases hphase with hp | hp <;> simp [hp]
    apply warned_leave
    have hnone := h.none hnot
    rw [State.warnings] at hnone ⊢
    rw [warnings_cannotForward, hnone]

theorem warned_run {steps : List (Step ι)} (h : t.run steps = some s) : Warned t s :=
  runSteps_invariant (fun hs hx => hs.step hx) (by simp [Warned, State.warnings]) h

section Arrivals

/-- What other threads put into the queue, in order. -/
def emplaced (steps : List (Step ι)) : List ι :=
  steps.filterMap fun
    | .emplace x => some x
    | _ => none

/-- The elements with their numbers in the queue. -/
def arrivals (steps : List (Step ι)) : List (ℕ × ι) := (emplaced steps).mapIdx Prod.mk

/-- A send that returns. -/
def Step.succeeds : Step ι → Bool
  | .take (.ok ()) => true
  | .resend (.ok ()) => true
  | _ => false

theorem arrivals_emplace (steps : List (Step ι)) (x : ι) :
    arrivals (steps ++ [.emplace x]) = arrivals steps ++ [((emplaced steps).length, x)] := by
  simp [arrivals, emplaced]

theorem emplaced_of_ne {x : Step ι} (hx : ∀ i, x ≠ .emplace i) (steps : List (Step ι)) :
    emplaced (steps ++ [x]) = emplaced steps := by
  cases x with
  | emplace i => exact absurd rfl (hx i)
  | _ => simp [emplaced]

theorem arrivals_of_ne {x : Step ι} (hx : ∀ i, x ≠ .emplace i) (steps : List (Step ι)) :
    arrivals (steps ++ [x]) = arrivals steps := by
  rw [arrivals, emplaced_of_ne hx, arrivals]

/-- The events that were taken are those that came in front of what is in the queue. A task that
does not read any more has taken a kill message behind them. -/
def TakesAll (t : OutputTask ι ε) (arrived : List (ℕ × ι)) (s : State ι ε) : Prop :=
  ∃ pre, (∀ e ∈ pre, t.isKill e.2 = false) ∧
    s.taken = pre.map (fun e => (e.1, t.forwarded e.2)) ∧
    if s.phase.reads then arrived = pre ++ s.queue
    else ∃ e, t.isKill e.2 = true ∧ arrived = pre ++ e :: s.queue

theorem TakesAll.congr {arrived : List (ℕ × ι)} (h : TakesAll t arrived s)
    (hsame : SameEvents s s') (hreads : s'.phase.reads = s.phase.reads) :
    TakesAll t arrived s' := by
  rw [TakesAll, hsame.taken, hsame.queue, hreads]
  exact h

/-- An event that is no kill message is taken. -/
theorem TakesAll.take {arrived : List (ℕ × ι)} (h : TakesAll t arrived s) {n : ℕ} {x : ι}
    {rest : List (ℕ × ι)} (hphase : s.phase = .loop) (hqueue : s.queue = (n, x) :: rest)
    (hkill : t.isKill x = false) (htaken : s'.taken = s.taken ++ [(n, t.forwarded x)])
    (hrest : s'.queue = rest) (hphase' : s'.phase = .loop) : TakesAll t arrived s' := by
  obtain ⟨pre, hpre, hold, harrived⟩ := h
  rw [if_pos (by rw [hphase]; rfl), hqueue] at harrived
  refine ⟨pre ++ [(n, x)], ?_, ?_, ?_⟩
  · intro e he
    rcases List.mem_append.mp he with he | he
    · exact hpre e he
    · rw [List.mem_singleton.mp he]
      exact hkill
  · rw [htaken, hold, List.map_append]
    rfl
  · rw [if_pos (by rw [hphase']; rfl), hrest, List.append_assoc]
    exact harrived

theorem TakesAll.step {steps : List (Step ι)} (h : TakesAll t (arrivals steps) s)
    (hputs : s.puts = (emplaced steps).length) {x : Step ι} (hstep : t.step s x = some s') :
    TakesAll t (arrivals (steps ++ [x])) s' := by
  cases does_of_step hstep with
  | emplace x =>
    obtain ⟨pre, hpre, htaken, harrived⟩ := h
    refine ⟨pre, hpre, htaken, ?_⟩
    rw [arrivals_emplace, ← hputs]
    show if s.phase.reads then _ = pre ++ (s.queue ++ [(s.puts, x)])
      else ∃ e, t.isKill e.2 = true ∧ _ = pre ++ e :: (s.queue ++ [(s.puts, x)])
    split at harrived
    · rw [if_pos ‹_›, harrived, List.append_assoc]
    · rw [if_neg ‹_›]
      obtain ⟨e, hkill, harrived⟩ := harrived
      exact ⟨e, hkill, by rw [harrived, List.append_assoc]; rfl⟩
  | @kill n i rest sent hphase hqueue hkill =>
    rw [arrivals_of_ne (by simp)]
    obtain ⟨pre, hpre, htaken, harrived⟩ := h
    rw [if_pos (by rw [hphase]; rfl)] at harrived
    have hsame := drain_sameEvents (t := t) .shutdown { s with queue := rest }
    have hreads := reads_drain (t := t) { s with queue := rest } (.inr rfl)
    refine ⟨pre, hpre, hsame.taken.trans htaken, ?_⟩
    rw [hreads, hsame.queue, if_neg (by decide)]
    exact ⟨(n, i), hkill, by rw [harrived, hqueue]⟩
  | direct hphase hqueue hkill =>
    rw [arrivals_of_ne (by simp)]
    exact h.take hphase hqueue hkill rfl rfl hphase
  | keep what hphase hqueue hkill =>
    rw [arrivals_of_ne (by simp)]
    exact h.take hphase hqueue hkill rfl rfl hphase
  | timeout hphase hqueue =>
    rw [arrivals_of_ne (by simp)]
    apply h.congr (drain_sameEvents .interval s)
    rw [reads_drain s (.inl rfl), hphase]
    rfl
  | @resent e rest hphase hlocal =>
    rw [arrivals_of_ne (by simp)]
    have hmoved : TakesAll t (arrivals steps)
        { s with localQueue := rest, delivered := s.delivered ++ [e] } := h
    exact hmoved.congr (drain_sameEvents s.phase _) (reads_drain _ hphase)
  | failed moment what hphase hlocal =>
    rw [arrivals_of_ne (by simp)]
    have hlogged : TakesAll t (arrivals steps)
        { s with log := s.log ++ [t.cannotForward moment what] } := h
    exact hlogged.congr (leave_sameEvents _) (reads_leave _ hphase)

theorem puts_step {x : Step ι} (hstep : t.step s x = some s') {steps : List (Step ι)}
    (hputs : s.puts = (emplaced steps).length) :
    s'.puts = (emplaced (steps ++ [x])).length := by
  cases does_of_step hstep with
  | emplace x => simp [emplaced, hputs]
  | kill | timeout | resent =>
    rw [(drain_sameEvents _ _).puts, emplaced_of_ne (by simp)]
    exact hputs
  | direct | keep =>
    rw [emplaced_of_ne (by simp)]
    exact hputs
  | failed moment what hphase hlocal =>
    rw [(leave_sameEvents _).puts, emplaced_of_ne (by simp)]
    exact hputs

/-- Only a send that returns delivers. -/
theorem delivered_step {x : Step ι} (hstep : t.step s x = some s') :
    s'.delivered.length ≤ s.delivered.length + if x.succeeds then 1 else 0 := by
  cases does_of_step hstep with
  | emplace x => exact Nat.le_refl _
  | kill | timeout =>
    rw [(drain_sameEvents _ _).delivered]
    exact Nat.le_add_right _ _
  | direct hphase hqueue hkill => simp [Step.succeeds]
  | keep what hphase hqueue hkill => exact Nat.le_refl _
  | resent hphase hlocal =>
    rw [(drain_sameEvents _ _).delivered]
    simp [Step.succeeds]
  | failed moment what hphase hlocal =>
    rw [(leave_sameEvents _).delivered]
    exact Nat.le_refl _

theorem takesAll_run {steps : List (Step ι)} (h : t.run steps = some s) :
    s.puts = (emplaced steps).length ∧ TakesAll t (arrivals steps) s ∧
      s.delivered.length ≤ steps.countP Step.succeeds := by
  induction steps using List.reverseRecOn generalizing s with
  | nil =>
    cases h
    exact ⟨rfl, ⟨[], by simp, rfl, rfl⟩, Nat.le_refl _⟩
  | append_singleton steps x ih =>
    obtain ⟨u, hu, hstep⟩ := runSteps_concat.mp h
    obtain ⟨hputs, htakes, hsends⟩ := ih hu
    refine ⟨puts_step hstep hputs, htakes.step hputs hstep, ?_⟩
    have hlast := delivered_step hstep
    rw [List.countP_append, List.countP_singleton]
    omega

end Arrivals

/-- At every point of a run, what has arrived was taken or is in the queue, but for the kill
message; what was taken has reached the sink, once and by a send that returned, or waits. What
still waits when the task returns is what its warning counts. -/
theorem taken_eq_delivered_add_localQueue (t : OutputTask ι ε) {steps : List (Step ι)}
    (h : t.run steps = some s) :
    TakesAll t (arrivals steps) s ∧
      (s.taken : Multiset (ℕ × ε)) = s.delivered + s.localQueue ∧
      (s.delivered.map Prod.fst).Nodup ∧
      s.delivered.length ≤ steps.countP Step.succeeds ∧
      s.warnings = if s.phase = .ended ∧ s.localQueue.isEmpty = false then
        [t.discarding s.localQueue.length] else [] := by
  have hbalanced := balanced_run h
  obtain ⟨-, htakes, hsends⟩ := takesAll_run h
  refine ⟨htakes, ?_, hbalanced.nodup_delivered, hsends, warned_run h⟩
  rw [Multiset.coe_add, Multiset.coe_eq_coe]
  exact hbalanced.balance

/-- One event is sent at once and one when the queue times out. Two can not be sent, neither then
nor at the shutdown, and one comes behind the kill message. -/
def discardingRun : List (Step SourceEvent) :=
  [.emplace { message := "first" }, .take (.ok ()), .emplace { message := "second" },
    .emplace { message := "third" }, .take (.error "No such file"), .take (.error "No such file"),
    .timeout, .resend (.ok ()), .resend (.error "No such file"), .emplace { message := "fourth" },
    .emplace { message := "!KILL", controlMessage := true }, .emplace { message := "late" },
    .take (.error "No such file"), .take (.ok ()), .resend (.error "No such file")]

theorem taken_eq_discardingRun : ∃ s, logscan.run discardingRun = some s ∧
    s.taken.map (·.2.message) = ["first", "second", "third", "fourth"] ∧
    s.delivered.length = 2 ∧ s.localQueue.map (·.2.message) = ["third", "fourth"] ∧
    s.warnings = [logscan.discarding 2] := by
  have hview : (logscan.run discardingRun).map
      (fun s => (s.phase, s.localQueue.map (·.2.message), s.queue.map (·.2.message))) =
        some (.ended, ["third", "fourth"], ["late"]) := by decide +kernel
  obtain ⟨s, hs, hview⟩ := Option.map_eq_some_iff.mp hview
  simp only [Prod.mk.injEq] at hview
  obtain ⟨hphase, hlocal, hqueue⟩ := hview
  obtain ⟨⟨pre, -, htaken, harrived⟩, hbalance, -, -, hwarnings⟩ :=
    taken_eq_delivered_add_localQueue logscan hs
  have hlength : s.localQueue.length = 2 := by simpa using congrArg List.length hlocal
  have hmessages : (arrivals discardingRun).map (·.2.message) =
      ["first", "second", "third", "fourth"] ++ ["!KILL", "late"] := by decide +kernel
  rw [if_neg (by rw [hphase]; decide)] at harrived
  obtain ⟨e, -, harrived⟩ := harrived
  have hfirst : s.taken.map (·.2.message) = ["first", "second", "third", "fourth"] := by
    rw [harrived, List.map_append, List.map_cons, hqueue] at hmessages
    rw [htaken, List.map_map]
    exact (List.append_inj' hmessages rfl).1
  refine ⟨s, hs, hfirst, ?_, hlocal, ?_⟩
  · have htotal := congrArg Multiset.card hbalance
    have hfour := congrArg List.length hfirst
    simp only [Multiset.card_add, Multiset.coe_card, List.length_map, List.length_cons,
      List.length_nil] at htotal hfour
    omega
  · have hnonempty : s.localQueue.isEmpty = false := by
      rw [List.isEmpty_eq_false_iff, ← List.length_pos_iff]
      omega
    rw [hwarnings, if_pos ⟨hphase, hnonempty⟩, hlength]

end OutputTask

end Ctguard
