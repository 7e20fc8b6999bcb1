import Ctguard.GroupRule

/-!
# Runs of the daemon

The thread that processes events and the thread that looks after pending alerts share
the states of the rules. A run is an interleaving of calls of `process_log` and passes of
the loop of `state_task`, each with its own reading of the clock, and its log lists the
acts of the calls and what the passes raise.
-/

namespace Ctguard

variable {ρ : Type}

/-- The settings of the daemon that decide about alerts. -/
structure ResearchConfig where
  logPriority : Priority := 0

/-- What one pass of `state_task` does to one rule: an alert whose time is over is disarmed
and raised, if its priority suffices or it is always raised. -/
def statePoll (cfg : ResearchConfig) (now : ℤ) (state : RuleState) : RuleState × Option Event :=
  if state.unlessTriggered ≠ 0 ∧ state.unlessTriggered + state.unlessTimeout.toNat < now then
    ({ state with unlessTriggered := 0 },
      if cfg.logPriority ≤ state.unlessEvent.priority ∨ state.unlessEvent.alwaysAlert = true then
        some state.unlessEvent
      else none)
  else (state, none)

/-- One pass of `state_task` over all rules, in the order of their ids. -/
def statePass (cfg : ResearchConfig) (now : ℤ) (st : RulesState) : RulesState × List Event :=
  (st.map fun _ state => (statePoll cfg now state).1,
    st.toList.filterMap fun entry => (statePoll cfg now entry.2).2)

/-- A step of a run. -/
inductive Step where
  | call (now : ℤ) (se : SourceEvent)
  | pass (now : ℤ)

def Step.now : Step → ℤ
  | .call now _ => now
  | .pass now => now

/-- An entry of the log. -/
inductive Entry (ρ : Type) where
  | act (now : ℤ) (a : Act ρ)
  | pass (now : ℤ) (alerts : List Event)

def Entry.now : Entry ρ → ℤ
  | .act now _ => now
  | .pass now _ => now

section Run

variable (host : Host ρ) (cfg : ResearchConfig) (rules : RuleCfg ρ)

/-- The states after a step, and what the step adds to the log. -/
def Step.run (st : RulesState) : Step → RulesState × List (Entry ρ)
  | .call now se =>
    let o := processLog host now se rules st
    (o.state, o.trace.map (.act now))
  | .pass now => ((statePass cfg now st).1, [.pass now (statePass cfg now st).2])

/-- The states after some steps from the start of the daemon. -/
def stateAfter (steps : List Step) : RulesState :=
  steps.foldl (fun st step => (step.run host cfg rules st).1) ∅

/-- What a run yields, step by step from the given states. -/
def collect {β : Type} (f : RulesState → Step → List β) : RulesState → List Step → List β
  | _, [] => []
  | st, step :: steps => f st step ++ collect f (step.run host cfg rules st).1 steps

/-- The log of a run. -/
def logOf (steps : List Step) : List (Entry ρ) :=
  collect host cfg rules (fun st step => (step.run host cfg rules st).2) ∅ steps

/-- The events of a run with which its calls entered the group rules. -/
def groupEvents (steps : List Step) : List (ℤ × Event) :=
  collect host cfg rules (fun st step => match step with
    | .call now se => ((enterGroups host now se rules st).map fun p => (now, p.1)).toList
    | .pass _ => []) ∅ steps

/-- No call of the run has thrown; an exception ends the thread that processes events. -/
def Returns (steps : List Step) : Prop :=
  ∀ done now se rest, steps = done ++ .call now se :: rest →
    ∃ e, (processLog host now se rules (stateAfter host cfg rules done)).result = .ok e

/-- What an entry of the log says about the states. -/
def Entry.apply (st : RulesState) : Entry ρ → RulesState
  | .act now a => a.apply host now st
  | .pass now _ => (statePass cfg now st).1

def replayLog (st : RulesState) (log : List (Entry ρ)) : RulesState :=
  log.foldl (Entry.apply host cfg) st

end Run

section Log

variable {host : Host ρ} {cfg : ResearchConfig} {rules : RuleCfg ρ}

@[simp] theorem stateAfter_nil : stateAfter host cfg rules [] = ∅ := rfl

@[simp] theorem stateAfter_concat (steps : List Step) (step : Step) :
    stateAfter host cfg rules (steps ++ [step]) =
      (step.run host cfg rules (stateAfter host cfg rules steps)).1 := by
  simp [stateAfter]

@[simp] theorem replayLog_nil (st : RulesState) :
    replayLog host cfg st ([] : List (Entry ρ)) = st := rfl

@[simp] theorem replayLog_cons (st : RulesState) (x : Entry ρ) (log : List (Entry ρ)) :
    replayLog host cfg st (x :: log) = replayLog host cfg (x.apply host cfg st) log := rfl

@[simp] theorem replayLog_append (st : RulesState) (log log' : List (Entry ρ)) :
    replayLog host cfg st (log ++ log') = replayLog host cfg (replayLog host cfg st log) log' :=
  List.foldl_append

theorem replayLog_acts (now : ℤ) (st : RulesState) (acts : List (Act ρ)) :
    replayLog host cfg st (acts.map (.act now)) = replay host now st acts := by
  induction acts generalizing st with
  | nil => rfl
  | cons a acts ih => exact ih (a.apply host now st)

/-- The states after a step are those of its part of the log. -/
theorem Step.run_replay (st : RulesState) (step : Step) :
    (step.run host cfg rules st).1 = replayLog host cfg st (step.run host cfg rules st).2 := by
  cases step with
  | call now se =>
    rw [Step.run]
    simp only
    rw [replayLog_acts]
    exact processLog_replay se rules st
  | pass now => rfl

theorem collect_append {β : Type} (f : RulesState → Step → List β) (st : RulesState)
    (steps steps' : List Step) :
    collect host cfg rules f st (steps ++ steps') = collect host cfg rules f st steps ++
      collect host cfg rules f
        (steps.foldl (fun st step => (step.run host cfg rules st).1) st) steps' := by
  induction steps generalizing st with
  | nil => rfl
  | cons step steps ih => simp [collect, ih]

theorem collect_concat {β : Type} (f : RulesState → Step → List β) (steps : List Step)
    (step : Step) :
    collect host cfg rules f ∅ (steps ++ [step]) = collect host cfg rules f ∅ steps ++
      f (stateAfter host cfg rules steps) step := by
  rw [collect_append]
  simp [collect, stateAfter]

theorem logOf_concat (steps : List Step) (step : Step) :
    logOf host cfg rules (steps ++ [step]) = logOf host cfg rules steps ++
      (step.run host cfg rules (stateAfter host cfg rules steps)).2 :=
  collect_concat _ steps step

@[simp] theorem logOf_nil : logOf host cfg rules [] = [] := rfl

theorem groupEvents_call (steps : List Step) (now : ℤ) (se : SourceEvent) :
    groupEvents host cfg rules (steps ++ [.call now se]) = groupEvents host cfg rules steps ++
      ((enterGroups host now se rules (stateAfter host cfg rules steps)).map
        fun p => (now, p.1)).toList :=
  collect_concat _ steps (.call now se)

theorem groupEvents_pass (steps : List Step) (now : ℤ) :
    groupEvents host cfg rules (steps ++ [.pass now]) = groupEvents host cfg rules steps := by
  rw [groupEvents, collect_concat]
  simp [groupEvents]

theorem Returns.concat {steps : List Step} {step : Step}
    (h : Returns host cfg rules (steps ++ [step])) : Returns host cfg rules steps := by
  rintro done now se rest rfl
  exact h done now se (rest ++ [step]) (by simp)

theorem Returns.last {steps : List Step} {now : ℤ} {se : SourceEvent}
    (h : Returns host cfg rules (steps ++ [.call now se])) :
    ∃ e, (processLog host now se rules (stateAfter host cfg rules steps)).result = .ok e :=
  h steps now se [] rfl

/-- The log of a run tells its states. -/
theorem stateAfter_replay (steps : List Step) :
    stateAfter host cfg rules steps = replayLog host cfg ∅ (logOf host cfg rules steps) := by
  induction steps using List.reverseRecOn with
  | nil => rfl
  | append_singleton steps step ih =>
    rw [stateAfter_concat, logOf_concat, replayLog_append, ← ih, Step.run_replay]

/-- Every entry of the log comes from some step, which found the states of the steps before. -/
theorem exists_step_of_mem_logOf {steps : List Step} {pre post : List (Entry ρ)} {x : Entry ρ}
    (h : logOf host cfg rules steps = pre ++ x :: post) :
    ∃ done step rest pre' post', steps = done ++ step :: rest ∧
      (step.run host cfg rules (stateAfter host cfg rules done)).2 = pre' ++ x :: post' ∧
      pre = logOf host cfg rules done ++ pre' := by
  induction steps using List.reverseRecOn generalizing post with
  | nil => simp at h
  | append_singleton steps step ih =>
    rw [logOf_concat] at h
    rcases append_eq_append_cons h with ⟨post', hpost⟩ | ⟨pre', hpre, hstep⟩
    · obtain ⟨done, step', rest, pre', post'', rfl, hrun, hpre⟩ := ih hpost
      exact ⟨done, step', rest ++ [step], pre', post'', by simp, hrun, hpre⟩
    · exact ⟨steps, step, [], pre', post, rfl, hstep, hpre⟩

/-- Every act of the log comes from some call. -/
theorem exists_call_of_act {steps : List Step} {pre post : List (Entry ρ)} {t : ℤ} {a : Act ρ}
    (h : logOf host cfg rules steps = pre ++ .act t a :: post) :
    ∃ done se rest pre' post', steps = done ++ .call t se :: rest ∧
      (processLog host t se rules (stateAfter host cfg rules done)).trace = pre' ++ a :: post' ∧
      pre = logOf host cfg rules done ++ pre'.map (.act t) := by
  obtain ⟨done, step, rest, pre', post', rfl, hrun, rfl⟩ := exists_step_of_mem_logOf h
  cases step with
  | pass now =>
    have hmem : Entry.act t a ∈ (Step.run host cfg rules (stateAfter host cfg rules done)
        (.pass now)).2 := by
      rw [hrun]
      exact List.mem_append_right _ List.mem_cons_self
    cases List.mem_singleton.mp hmem
  | call now se =>
    obtain ⟨before, rest', htrace, rfl, hcons⟩ := List.map_eq_append_iff.mp hrun
    obtain ⟨b, after, rfl, heq, -⟩ := List.map_eq_cons_iff.mp hcons
    cases heq
    exact ⟨done, se, rest, before, after, rfl, htrace, rfl⟩

/-- In the log an id stands for one rule. -/
def Coherent (rl : Rule ρ) (log : List (Entry ρ)) : Prop :=
  ∀ now a, .act now a ∈ log → a.rule.id = rl.id → a.rule = rl

theorem mem_views_of_act {steps : List Step} {pre post : List (Entry ρ)} {t : ℤ} {a : Act ρ}
    (h : logOf host cfg rules steps = pre ++ .act t a :: post) :
    ∃ v ∈ rules.views, v.1 = a.rule := by
  obtain ⟨done, se, rest, pre', post', -, htrace, -⟩ := exists_call_of_act h
  obtain ⟨-, -, -, hplaced⟩ := processLog_act htrace
  exact hplaced.mem_views

theorem coherent_log (hrules : rules.Valid host) {rl : Rule ρ}
    (hmem : ∃ v ∈ rules.views, v.1 = rl) (steps : List Step) :
    Coherent rl (logOf host cfg rules steps) := by
  intro t a ha hid
  obtain ⟨pre, post, hlog⟩ := List.append_of_mem ha
  obtain ⟨v, hv, hroot⟩ := mem_views_of_act hlog
  obtain ⟨w, hw, rfl⟩ := hmem
  rw [← hroot] at hid ⊢
  exact hrules.same v hv w hw hid

theorem Coherent.subset {rl : Rule ρ} {log log' : List (Entry ρ)} (h : Coherent rl log)
    (hsub : log' ⊆ log) : Coherent rl log' :=
  fun now a ha => h now a (hsub ha)

/-- The alerts of a pass are those of the states that the log before it tells. -/
theorem alerts_of_pass {steps : List Step} {pre post : List (Entry ρ)} {now : ℤ}
    {alerts : List Event} (h : logOf host cfg rules steps = pre ++ .pass now alerts :: post) :
    alerts = (statePass cfg now (replayLog host cfg ∅ pre)).2 := by
  obtain ⟨done, step, rest, pre', post', rfl, hrun, rfl⟩ := exists_step_of_mem_logOf h
  cases step with
  | call now' se =>
    have hmem : Entry.pass now alerts ∈ (Step.run host cfg rules (stateAfter host cfg rules done)
        (.call now' se)).2 := by
      rw [hrun]
      exact List.mem_append_right _ List.mem_cons_self
    obtain ⟨a, -, heq⟩ := List.mem_map.mp hmem
    cases heq
  | pass now' =>
    obtain ⟨hpre, hcons⟩ := List.append_eq_singleton_iff.mp hrun.symm |>.resolve_right (by simp)
    cases hcons
    rw [hpre, List.append_nil, ← stateAfter_replay]

/-- The stamps of the log are the clock readings of the steps. -/
theorem Step.run_now {st : RulesState} {step : Step} {x : Entry ρ}
    (h : x ∈ (step.run host cfg rules st).2) : x.now = step.now := by
  cases step with
  | call now se =>
    obtain ⟨a, -, rfl⟩ := List.mem_map.mp h
    rfl
  | pass now =>
    rw [List.mem_singleton.mp h]
    rfl

/-- Steps under a clock that never goes back. -/
def InOrder (steps : List Step) : Prop := (steps.map Step.now).Pairwise (· ≤ ·)

instance (steps : List Step) : Decidable (InOrder steps) :=
  inferInstanceAs (Decidable (List.Pairwise _ _))

theorem InOrder.concat {steps : List Step} {step : Step} (h : InOrder (steps ++ [step])) :
    InOrder steps ∧ ∀ s ∈ steps, s.now ≤ step.now := by
  rw [InOrder, List.map_append, List.pairwise_append] at h
  obtain ⟨hsteps, -, hle⟩ := h
  refine ⟨hsteps, ?_⟩
  intro s hs
  exact hle s.now (List.mem_map_of_mem hs) step.now (by simp)

theorem exists_step_of_mem {steps : List Step} {x : Entry ρ}
    (h : x ∈ logOf host cfg rules steps) : ∃ s ∈ steps, s.now = x.now := by
  obtain ⟨pre, post, hlog⟩ := List.append_of_mem h
  obtain ⟨done, step, rest, pre', post', rfl, hrun, -⟩ := exists_step_of_mem_logOf hlog
  have hmem : x ∈ (step.run host cfg rules (stateAfter host cfg rules done)).2 := by simp [hrun]
  exact ⟨step, by simp, (Step.run_now hmem).symm⟩

/-- The stamps of a log never go back if the clock does not. -/
theorem InOrder.log {steps : List Step} (h : InOrder steps) :
    (logOf host cfg rules steps).Pairwise fun x y => x.now ≤ y.now := by
  induction steps using List.reverseRecOn with
  | nil => simp
  | append_singleton steps step ih =>
    obtain ⟨hsteps, hle⟩ := h.concat
    rw [logOf_concat, List.pairwise_append]
    refine ⟨ih hsteps, ?_, ?_⟩
    · rw [List.pairwise_iff_forall_sublist]
      intro x y hsub
      rw [Step.run_now (hsub.subset (by simp : x ∈ [x, y])),
        Step.run_now (hsub.subset (by simp : y ∈ [x, y]))]
    · intro x hx y hy
      obtain ⟨s, hs, heq⟩ := exists_step_of_mem hx
      rw [← heq, Step.run_now hy]
      exact hle s hs

end Log

end Ctguard
