import Ctguard.OutputTask
import Ctguard.UnlessAlerts

/-!
# What becomes of an event

`processing_task` hands an event on: its interventions go into one queue and the event into
another. `state_task` hands on the event of a pending unless-alert, in code of its own. The
two agree on an alert if the event that armed it already has the flag and the interventions
of the rule, since only `update_event` writes them, and if it asks for no intervention.
-/

namespace Ctguard

open OneShotTimer

variable {ρ : Type} {host : Host ρ} {cfg : ResearchConfig} {rules : RuleCfg ρ}

section Handling

/-- What is put into the queues for one event, and the texts of the warnings. -/
structure Handled where
  alerts : List Event := []
  interventions : List Intervention := []
  warnings : List String := []

def emptyArgument (ev : Event) (i : InterventionRule) : String :=
  "Empty argument '" ++ i.field ++ "' for intervention '" ++ i.name ++ "' by rule " ++
    toString ev.ruleId

/-- The interventions of an event whose field is present. -/
def requested (ev : Event) : List Intervention :=
  ev.interventions.filterMap fun i =>
    ev.fields[i.field]?.map fun argument => { name := i.name, argument := argument, kill := false }

/-- What `processing_task` does with an event behind `process_log`. -/
def handle (cfg : ResearchConfig) (ev : Event) : Handled :=
  if cfg.Raises ev then
    { alerts := [ev]
      interventions := requested ev
      warnings := (ev.interventions.filter fun i =>
        ev.fields[i.field]? = none ∧ i.ignoreEmptyField = false).map (emptyArgument ev) }
  else {}

/-- The same alerts, and the same interventions. -/
def Handled.Agrees (h h' : Handled) : Prop :=
  h.alerts = h'.alerts ∧ h.interventions = h'.interventions

theorem requested_eq_nil {ev : Event} :
    requested ev = [] ↔ ∀ i ∈ ev.interventions, ev.fields[i.field]? = none := by
  simp [requested, List.filterMap_eq_nil_iff]

end Handling

section Passes

/-- What a pass of `state_task` hands on for a rule. It has no queue of interventions. -/
def passHandled (id : RuleId) (alerts : List Event) : Handled where
  alerts := alerts.filter fun e => e.ruleId = id

theorem mem_passHandled {steps : List Step} {pre post : List (Entry ρ)} {now : ℤ}
    {alerts : List Event} (hlog : logOf host cfg rules steps = pre ++ .pass now alerts :: post)
    {id : RuleId} {e : Event} : e ∈ (passHandled id alerts).alerts ↔
      (pending (replayLog host cfg ∅ pre) id).due now = some e ∧ cfg.Raises e := by
  rw [passHandled, List.mem_filter, decide_eq_true_iff, alerts_of_pass hlog, mem_statePass]
  constructor
  · rintro ⟨⟨id', hdue, hraises⟩, hid⟩
    obtain ⟨deadline, hpending, -⟩ := due_eq_some.mp hdue
    have heq : id' = id := (pending_ruleId hpending).symm.trans hid
    exact ⟨heq ▸ hdue, hraises⟩
  · rintro ⟨hdue, hraises⟩
    obtain ⟨deadline, hpending, -⟩ := due_eq_some.mp hdue
    exact ⟨⟨id, hdue, hraises⟩, pending_ruleId hpending⟩

/-- The alerts of a pass for one rule: its pending alert, if it is due and raised. -/
theorem passHandled_alerts {steps : List Step} {pre post : List (Entry ρ)} {now : ℤ}
    {alerts : List Event} (hlog : logOf host cfg rules steps = pre ++ .pass now alerts :: post)
    (id : RuleId) : (passHandled id alerts).alerts =
      (((pending (replayLog host cfg ∅ pre) id).due now).filter fun e => cfg.Raises e).toList := by
  have hnodup : (passHandled id alerts).alerts.Nodup := by
    apply List.Nodup.filter
    apply List.Nodup.of_map Event.ruleId
    rw [alerts_of_pass hlog]
    exact nodup_ruleIds now pre
  have hmem : ∀ e, e ∈ (passHandled id alerts).alerts ↔
      (pending (replayLog host cfg ∅ pre) id).due now = some e ∧ cfg.Raises e :=
    fun e => mem_passHandled hlog
  cases hdue : (pending (replayLog host cfg ∅ pre) id).due now with
  | none =>
    apply List.eq_nil_iff_forall_not_mem.mpr
    intro e he
    simp [hmem, hdue] at he
  | some e =>
    by_cases hraises : cfg.Raises e
    · rw [Option.filter_some_pos (by simpa using hraises)]
      apply List.perm_singleton.mp
      apply (List.perm_ext_iff_of_nodup hnodup (List.nodup_singleton e)).mpr
      intro e'
      rw [hmem, hdue, Option.some.injEq, List.mem_singleton]
      exact ⟨fun h => h.1.symm, fun h => ⟨h.symm, h ▸ hraises⟩⟩
    · rw [Option.filter_some_neg (by simpa using hraises)]
      apply List.eq_nil_iff_forall_not_mem.mpr
      intro e' he'
      rw [hmem, hdue, Option.some.injEq] at he'
      exact hraises (he'.1 ▸ he'.2)

/-- Nothing but early signals has come since a rule was armed. An arming at the time zero is
none, since that is how an idle timer is stored. -/
theorem pending_of_arming {rl : Rule ρ} (hunless : rl.HasUnless) {ev : Event}
    (hparent : ev.ruleId ∈ rl.parentIds) (pre : List (Entry ρ)) {mid : List (Entry ρ)} {t : ℤ}
    (hearly : ∀ s ∈ signals rl.id mid, s.Early (t + rl.unlessRule.timeout.toNat)) :
    pending (replayLog host cfg ∅ (pre ++ .act t (.check ev rl) :: mid)) rl.id =
      if t = 0 then none else some (t + rl.unlessRule.timeout.toNat, ev.update rl) := by
  have hsignal : signalOf rl.id (.act t (.check ev rl)) =
      some (if t = 0 then .cancel else .arm (t + rl.unlessRule.timeout.toNat) (ev.update rl)) := by
    rw [signalOf, if_pos ⟨rfl, hunless⟩, if_pos hparent]
  rw [pending_replayLog, signals, List.filterMap_append, List.filterMap_cons_some hsignal,
    run_append, run_cons]
  by_cases hzero : t = 0
  · rw [if_pos hzero, if_pos hzero]
    exact run_none_of_early hearly
  · rw [if_neg hzero, if_neg hzero]
    exact run_of_early hearly

end Passes

section Chosen

/-- What the event that arms a pending alert must have in common with the rule. -/
def ArmsLikeChosen (cfg : ResearchConfig) (ev : Event) (rl : Rule ρ) : Prop :=
  ev.alwaysAlert = rl.alwaysAlert ∧
    (cfg.logPriority ≤ rl.priority ∨ rl.alwaysAlert = true →
      ev.interventions = rl.interventions ∧ ∀ i ∈ rl.interventions, ev.fields[i.field]? = none)

/-- The event with which the rule would have been chosen, without captures. -/
theorem updateEvent_eq (ev : Event) (rl : Rule ρ) : updateEvent ev rl {} =
    { ev.update rl with alwaysAlert := rl.alwaysAlert, interventions := rl.interventions } := rfl

theorem raises_update {ev : Event} {rl : Rule ρ} :
    cfg.Raises (ev.update rl) ↔ cfg.logPriority ≤ rl.priority ∨ ev.alwaysAlert = true := .rfl

theorem raises_updateEvent {ev : Event} {rl : Rule ρ} {c : Checked} :
    cfg.Raises (updateEvent ev rl c) ↔ cfg.logPriority ≤ rl.priority ∨ rl.alwaysAlert = true := .rfl

variable {rl : Rule ρ} {ev : Event}

theorem update_eq_updateEvent_iff : ev.update rl = updateEvent ev rl {} ↔
    ev.alwaysAlert = rl.alwaysAlert ∧ ev.interventions = rl.interventions := by
  constructor
  · intro h
    exact ⟨congrArg Event.alwaysAlert h, congrArg Event.interventions h⟩
  · rintro ⟨halways, hinterventions⟩
    rw [updateEvent_eq, ← halways, ← hinterventions]
    rfl

/-- The alert of a due unless-alert is handed on as if its rule had been chosen. -/
theorem armed_agrees_iff {h : Handled} (hinterventions : h.interventions = [])
    (halerts : h.alerts = ((some (ev.update rl)).filter fun e => cfg.Raises e).toList) :
    h.Agrees (handle cfg (updateEvent ev rl {})) ↔ ArmsLikeChosen cfg ev rl := by
  rw [Handled.Agrees, hinterventions, halerts, handle, ArmsLikeChosen]
  by_cases hraises : cfg.Raises (updateEvent ev rl {})
  · have hchosen := raises_updateEvent.mp hraises
    have hqueued : [] = requested (updateEvent ev rl {}) ↔
        ∀ i ∈ rl.interventions, ev.fields[i.field]? = none := by
      rw [eq_comm, requested_eq_nil]
      rfl
    by_cases hupdate : cfg.Raises (ev.update rl)
    · rw [if_pos hraises, Option.filter_some_pos (by simpa using hupdate)]
      simp only [Option.toList_some, List.cons.injEq, and_true, hqueued,
        update_eq_updateEvent_iff, hchosen, true_imp_iff, and_assoc]
    · rw [if_pos hraises, Option.filter_some_neg (by simpa using hupdate)]
      simp only [Option.toList_none, List.nil_eq, reduceCtorEq, false_and, false_iff, not_and]
      -- the priority is too low, and only the rule is always raised
      intro halways
      rw [raises_update, halways] at hupdate
      exact absurd hchosen hupdate
  · have hchosen : ¬ (cfg.logPriority ≤ rl.priority ∨ rl.alwaysAlert = true) :=
      fun h => hraises (raises_updateEvent.mpr h)
    rw [if_neg hraises]
    by_cases hupdate : cfg.Raises (ev.update rl)
    · rw [Option.filter_some_pos (by simpa using hupdate)]
      simp only [Option.toList_some, reduceCtorEq, false_and, false_iff, not_and]
      intro halways
      rw [raises_update, halways] at hupdate
      exact absurd hupdate hchosen
    · rw [Option.filter_some_neg (by simpa using hupdate)]
      rw [raises_update, not_or, Bool.not_eq_true] at hupdate
      rw [not_or, Bool.not_eq_true] at hchosen
      simp [hupdate.2, hchosen.2, hchosen.1]

/-- An unless-alert is treated like any other alert of its rule. In every run, the first pass
after the time of an arming is over hands on the alert and the interventions that the rule
would have had as the chosen rule, exactly if the event that armed it has the rule's flag and,
where that alert is raised, its interventions, none of which finds its field. -/
theorem pass_like_chosen_iff {roots : List XMLNode} (h : parseFiles host roots = .ok rules)
    (hunless : rl.HasUnless) {steps : List Step} {pre mid post : List (Entry ρ)} {t now : ℤ}
    {alerts : List Event}
    (hlog : logOf host cfg rules steps =
      (pre ++ .act t (.check ev rl) :: mid) ++ .pass now alerts :: post)
    (hparent : ev.ruleId ∈ rl.parentIds) (huntouched : ∀ x ∈ mid, touch rl x = none)
    (hfirst : ∀ s alerts', .pass s alerts' ∈ mid → s ≤ t + rl.unlessRule.timeout.toNat)
    (hdue : t + rl.unlessRule.timeout.toNat < now) :
    (passHandled rl.id alerts).Agrees (handle cfg (updateEvent ev rl {})) ↔
      if t = 0 then ¬ cfg.Raises (updateEvent ev rl {}) else ArmsLikeChosen cfg ev rl := by
  have hmem : ∃ v ∈ rules.views, v.1 = rl := by
    rw [List.append_assoc, List.cons_append] at hlog
    exact mem_views_of_act hlog
  have hcoherent : Coherent rl mid := by
    have hall : Coherent rl (logOf host cfg rules steps) :=
      coherent_log (parseFiles_valid h) hmem steps
    apply hall.subset
    intro x hx
    simp [hlog, hx]
  have hearly : ∀ s ∈ signals rl.id mid, s.Early (t + rl.unlessRule.timeout.toNat) := by
    intro s hs
    obtain ⟨s', alerts', hpass, rfl⟩ := signal_cases hcoherent huntouched hs
    exact hfirst s' alerts' hpass
  have halerts := passHandled_alerts hlog rl.id
  rw [pending_of_arming hunless hparent pre hearly] at halerts
  by_cases hzero : t = 0
  · rw [if_pos hzero] at halerts ⊢
    rw [Handled.Agrees, halerts, handle]
    split_ifs with hraises
    · simp [due, hraises]
    · simp [due, hraises, passHandled]
  · rw [if_neg hzero] at halerts ⊢
    rw [due_eq_some.mpr ⟨_, rfl, hdue⟩] at halerts
    exact armed_agrees_iff rfl halerts

end Chosen

section Examples

theorem pass_like_chosen_iff_waiting : ∃ ev alerts,
    logOf plainHost {} waitingRules [.call 1 start, .pass 4] =
      logOf plainHost {} waitingRules [.call 1 start] ++ .pass 4 alerts :: [] ∧
      ((passHandled waitingRule.id alerts).Agrees (handle {} (updateEvent ev waitingRule {})) ↔
        ArmsLikeChosen {} ev waitingRule) := by
  obtain ⟨pre, mid, ev, alerts, hlog, hparent, hmid, hpasses⟩ := waiting_passed
  have hunless : waitingRule.HasUnless := by decide +kernel
  have htimeout : waitingRule.unlessRule.timeout.toNat = 2 := by decide +kernel
  have hfirst : ∀ (s : ℤ) alerts', .pass s alerts' ∈ mid →
      s ≤ 1 + waitingRule.unlessRule.timeout.toNat := by
    intro s alerts' hpass
    have hle := hpasses s alerts' hpass
    omega
  have hdue : 1 + (waitingRule.unlessRule.timeout.toNat : ℤ) < 4 := by
    rw [htimeout]
    decide
  have hiff := pass_like_chosen_iff waiting_accepted hunless hlog hparent hmid hfirst hdue
  have hcut : logOf plainHost {} waitingRules [.call 1 start] =
      pre ++ .act 1 (.check ev waitingRule) :: mid := by
    have hconcat : logOf plainHost {} waitingRules [.call 1 start, .pass 4] =
        logOf plainHost {} waitingRules [.call 1 start] ++
          [.pass 4 (statePass {} 4 (stateAfter plainHost {} waitingRules [.call 1 start])).2] :=
      logOf_concat [.call 1 start] (.pass 4)
    rw [hconcat] at hlog
    exact List.append_inj_left' hlog (by simp only [List.length_singleton])
  refine ⟨ev, alerts, ?_, hiff⟩
  rw [hcut]
  exact hlog

/-- A rule that is always raised, whatever its priority, and waits for a stop after a start. -/
def alwaysFile : XMLNode := { name := "rule_group", children := [
  { name := "rule", attributes := [("id", "1"), ("priority", "1")],
    children := [{ name := "regex", value := "start" }] },
  { name := "rule", attributes := [("id", "2"), ("priority", "1")],
    children := [{ name := "regex", value := "stop" }] },
  { name := "rule", attributes := [("id", "3"), ("priority", "1"), ("always_alert", "true")],
    children := [
      { name := "if_rule", value := "1" },
      { name := "unless_rule", attributes := [("timeout", "2")], value := "2" }] }] }

def alwaysRules : RuleCfg PlainRegex := plainRules [alwaysFile]

def alwaysRule : Rule PlainRegex :=
  ((alwaysRules.views.map Prod.fst).find? fun rl => rl.id = 3).getD {}

/-- A start is not followed by a stop within the time, and the pass hands nothing on. Had the
rule been chosen, its alert would have been handed on in spite of its low priority. -/
theorem always_not_raised :
    (parseFiles plainHost [alwaysFile]).isOk = true ∧ alwaysRule.alwaysAlert = true ∧
      checkedUnder alwaysRule
        (logOf plainHost { logPriority := 5 } alwaysRules [.call 1 start, .pass 4]) = [(1, 1)] ∧
      raisedFor (logOf plainHost { logPriority := 5 } alwaysRules [.call 1 start, .pass 4]) =
        [(4, [])] ∧
      (lastTouch alwaysRule
        (logOf plainHost { logPriority := 5 } alwaysRules [.call 1 start, .pass 4])).map
          (fun p => (handle { logPriority := 5 } (updateEvent p.2 alwaysRule {})).alerts.map
            Event.ruleId) = some [3] := by
  decide +kernel

end Examples

end Ctguard
