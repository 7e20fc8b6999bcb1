import Ctguard.GroupRule
import Ctguard.OneShotTimer
import Ctguard.PlainHost
import Ctguard.StateTask

/-!
# Alerts for rules that did not come

The fields of a rule's state that hold its pending alert are a one-shot timer: a check
under a parent arms it, a check under the unless rule cancels it, a pass polls it, and
nothing else touches it. So what a pass raises is told by the log. Arming at the time zero
is the exception: it leaves the timer idle, since that is how an idle timer is stored.
-/

namespace Ctguard

open OneShotTimer

variable {ρ : Type} {host : Host ρ} {cfg : ResearchConfig} {rules : RuleCfg ρ}

section Pending

/-- The pending alert of a rule with its deadline. -/
def RuleState.pending (state : RuleState) : OneShotTimer Event :=
  if state.unlessTriggered = 0 then none
  else some (state.unlessTriggered + state.unlessTimeout.toNat, state.unlessEvent)

def pending (st : RulesState) (id : RuleId) : OneShotTimer Event :=
  st[id]?.bind RuleState.pending

@[simp] theorem pending_empty (id : RuleId) : pending ∅ id = none := by
  simp [pending]

@[simp] theorem pending_insert (st : RulesState) (id : RuleId) (state : RuleState) :
    pending (st.insert id state) id = state.pending := by
  simp [pending]

theorem pending_congr {st st' : RulesState} {id : RuleId} (h : st'[id]? = st[id]?) :
    pending st' id = pending st id := by
  rw [pending, pending, h]

theorem pending_getD (st : RulesState) (id : RuleId) :
    (st.getD id {}).pending = pending st id := by
  rw [Std.ExtTreeMap.getD_eq_getD_getElem?, pending]
  cases st[id]? with
  | none => rfl
  | some state => rfl

/-- The alerts that are raised: those of enough priority, and those that always are. -/
def ResearchConfig.Raises (cfg : ResearchConfig) (ev : Event) : Prop :=
  cfg.logPriority ≤ ev.priority ∨ ev.alwaysAlert = true

instance (cfg : ResearchConfig) (ev : Event) : Decidable (cfg.Raises ev) :=
  inferInstanceAs (Decidable (_ ∨ _))

/-- A pass polls the timer. -/
theorem statePoll_pending (now : ℤ) (state : RuleState) :
    (statePoll cfg now state).1.pending = state.pending.step (.poll now) := by
  rw [statePoll]
  by_cases hidle : state.unlessTriggered = 0
  · simp [RuleState.pending, hidle, step]
  · by_cases hdue : state.unlessTriggered + state.unlessTimeout.toNat < now
    · have hnot : ¬ now ≤ state.unlessTriggered + state.unlessTimeout.toNat := by omega
      simp [RuleState.pending, hidle, hdue, hnot, step, Option.filter]
    · have hle : now ≤ state.unlessTriggered + state.unlessTimeout.toNat := by omega
      simp [RuleState.pending, hidle, hdue, hle, step, Option.filter]

theorem statePoll_raised (now : ℤ) (state : RuleState) (ev : Event) :
    (statePoll cfg now state).2 = some ev ↔ state.pending.due now = some ev ∧ cfg.Raises ev := by
  rw [statePoll]
  by_cases hidle : state.unlessTriggered = 0
  · simp [RuleState.pending, hidle, due]
  · by_cases hdue : state.unlessTriggered + state.unlessTimeout.toNat < now
    · by_cases hraises : cfg.Raises state.unlessEvent
      · have hgate := hraises
        rw [ResearchConfig.Raises] at hgate
        simp only [hidle, hdue, hgate, RuleState.pending, due, Option.filter, ne_eq,
          not_false_eq_true, and_self, if_true, if_false, decide_true, Option.map_some,
          Option.some.injEq]
        exact ⟨fun h => ⟨h, h ▸ hraises⟩, And.left⟩
      · have hgate := hraises
        rw [ResearchConfig.Raises] at hgate
        simp only [hidle, hdue, hgate, RuleState.pending, due, Option.filter, ne_eq,
          not_false_eq_true, and_self, if_true, if_false, decide_true, Option.map_some,
          Option.some.injEq, reduceCtorEq, false_iff, not_and]
        exact fun h => h ▸ hraises
    · simp [RuleState.pending, hidle, hdue, due, Option.filter]

theorem pending_checkActivation (now : ℤ) (ev : Event) (rl : Rule ρ) (st : RulesState) :
    pending (checkActivation now ev rl st).1 rl.id = pending st rl.id := by
  rw [checkActivation]
  by_cases hact : rl.HasActivation
  · rw [if_pos hact]
    cases hstate : st[rl.id]? with
    | none =>
      simp only
      split_ifs
      · rw [pending_insert, pending, hstate]
        rfl
      · rfl
    | some state =>
      rw [pending_insert, pending, hstate]
      rfl
  · rw [if_neg hact]

theorem pending_updateState (st : RulesState) (rl : Rule ρ) (ev : Event) :
    pending (updateState st rl ev) rl.id = pending st rl.id := by
  rw [updateState]
  by_cases hreset : rl.HasActivation ∧ rl.activationGroup.reset = true
  · rw [if_pos hreset]
    cases hstate : st[rl.id]? with
    | none => rfl
    | some state =>
      have hpending : pending st rl.id = state.pending := by simp [pending, hstate]
      by_cases hsame : rl.sameField = ""
      · simp only [hsame, if_true, pending_insert, hpending]
        rfl
      · cases hvalue : ev.fields[rl.sameField]? with
        | none => simp [hsame]
        | some value =>
          simp only [hsame, if_false, pending_insert, hpending]
          rfl
  · rw [if_neg hreset]

theorem pending_statePass (now : ℤ) (st : RulesState) (id : RuleId) :
    pending (statePass cfg now st).1 id = (pending st id).step (.poll now) := by
  rw [pending, pending, statePass]
  simp only [Std.ExtTreeMap.getElem?_map]
  cases st[id]? with
  | none => rfl
  | some state => exact statePoll_pending now state

end Pending

section Signals

/-- What an entry of the log does to the pending alert of an id. -/
def signalOf (id : RuleId) : Entry ρ → Option (Signal Event)
  | .act t (.check ev rl) =>
    if rl.id = id ∧ rl.HasUnless then
      if ev.ruleId ∈ rl.parentIds then
        -- an idle timer is stored as the time zero
        some (if t = 0 then .cancel else .arm (t + rl.unlessRule.timeout.toNat) (ev.update rl))
      else if ev.ruleId = rl.unlessRule.id then some .cancel
      else none
    else none
  | .act _ (.fit _ _ _) => none
  | .pass now _ => some (.poll now)

def signals (id : RuleId) (log : List (Entry ρ)) : List (Signal Event) :=
  log.filterMap (signalOf id)

theorem pending_checkUnless (now : ℤ) (ev : Event) (rl : Rule ρ) (hunless : rl.HasUnless)
    (st : RulesState) : pending (checkUnless now ev rl st).1 rl.id =
      (pending st rl.id).run (signalOf rl.id (.act now (.check ev rl))).toList := by
  rw [signalOf, if_pos ⟨rfl, hunless⟩, checkUnless]
  by_cases hparent : ev.ruleId ∈ rl.parentIds
  · simp only [hparent, if_true, pending_insert]
    by_cases hzero : now = 0
    · simp [hzero, RuleState.pending, step]
    · simp [hzero, RuleState.pending, step]
  · by_cases hother : ev.ruleId = rl.unlessRule.id
    · simp only [if_neg hparent, if_pos hother, pending_insert]
      rfl
    · simp only [hparent, hother, if_false, pending_insert, pending_getD]
      rfl

/-- The step of the run: every entry of the log acts on a pending alert by its signal. -/
theorem pending_apply (x : Entry ρ) (st : RulesState) (id : RuleId) :
    pending (x.apply host cfg st) id = (pending st id).run (signalOf id x).toList := by
  cases x with
  | pass now alerts => exact pending_statePass now st id
  | act now a =>
    rw [Entry.apply]
    by_cases hid : a.rule.id = id
    · subst hid
      cases a with
      | fit ev rl c => exact pending_updateState st rl _
      | check ev rl =>
        rw [Act.apply, checkRule]
        by_cases hunless : rl.HasUnless
        · rw [if_pos hunless]
          exact pending_checkUnless now ev rl hunless st
        · rw [if_neg hunless, signalOf, if_neg fun h => hunless h.2]
          exact pending_checkActivation now ev rl st
    · rw [pending_congr (Act.apply_getElem? host now hid st)]
      cases a with
      | fit ev rl c => rfl
      | check ev rl =>
        rw [signalOf, if_neg fun h => hid h.1]
        rfl

theorem pending_replayLog (log : List (Entry ρ)) (st : RulesState) (id : RuleId) :
    pending (replayLog host cfg st log) id = (pending st id).run (signals id log) := by
  induction log generalizing st with
  | nil => rfl
  | cons x log ih =>
    rw [replayLog_cons, ih, pending_apply, ← run_append]
    congr 1
    rw [signals, signals, List.filterMap_cons]
    cases signalOf id x with
    | none => rfl
    | some s => rfl

/-- The signals that arm a pending alert. -/
theorem signalOf_eq_arm {id : RuleId} {x : Entry ρ} {deadline : ℤ} {e : Event} :
    signalOf id x = some (.arm deadline e) ↔ ∃ t ev rl, x = .act t (.check ev rl) ∧ rl.id = id ∧
      rl.HasUnless ∧ ev.ruleId ∈ rl.parentIds ∧ t ≠ 0 ∧
      deadline = t + rl.unlessRule.timeout.toNat ∧ e = ev.update rl := by
  constructor
  · intro h
    cases x with
    | pass now alerts => simp [signalOf] at h
    | act t a =>
      cases a with
      | fit ev rl c => simp [signalOf] at h
      | check ev rl =>
        rw [signalOf] at h
        split_ifs at h with hrule hparent hzero
        · simp at h
        · simp only [Option.some.injEq, Signal.arm.injEq] at h
          exact ⟨t, ev, rl, rfl, hrule.1, hrule.2, hparent, hzero, h.1.symm, h.2.symm⟩
        · simp at h
  · rintro ⟨t, ev, rl, rfl, hid, hunless, hparent, hzero, rfl, rfl⟩
    rw [signalOf, if_pos ⟨hid, hunless⟩, if_pos hparent, if_neg hzero]

/-- What is pending after a log was armed in it, and nothing has touched it since. -/
theorem pending_log_iff {log : List (Entry ρ)} {id : RuleId} {deadline : ℤ} {e : Event} :
    pending (replayLog host cfg ∅ log) id = some (deadline, e) ↔
      ∃ before t ev rl after, log = before ++ .act t (.check ev rl) :: after ∧ rl.id = id ∧
        rl.HasUnless ∧ ev.ruleId ∈ rl.parentIds ∧ t ≠ 0 ∧
        deadline = t + rl.unlessRule.timeout.toNat ∧ e = ev.update rl ∧
        ∀ s ∈ signals id after, s.Early deadline := by
  rw [pending_replayLog, pending_empty, run_eq_some_iff]
  constructor
  · rintro ⟨sigs, sigs', hsignals, hearly⟩
    obtain ⟨before, rest, rfl, -, hrest⟩ := List.filterMap_eq_append_iff.mp hsignals
    obtain ⟨skipped, x, after, rfl, hskipped, hx, rfl⟩ := List.filterMap_eq_cons_iff.mp hrest
    obtain ⟨t, ev, rl, rfl, hrule⟩ := signalOf_eq_arm.mp hx
    obtain ⟨hid, hunless, hparent, hzero, hdeadline, he⟩ := hrule
    exact ⟨before ++ skipped, t, ev, rl, after, by simp, hid, hunless, hparent, hzero, hdeadline,
      he, hearly⟩
  · rintro ⟨before, t, ev, rl, after, rfl, hid, hunless, hparent, hzero, hdeadline, he, hearly⟩
    refine ⟨signals id before, signals id after, ?_, hearly⟩
    have harm : signalOf id (.act t (.check ev rl)) = some (.arm deadline e) :=
      signalOf_eq_arm.mpr ⟨t, ev, rl, rfl, hid, hunless, hparent, hzero, hdeadline, he⟩
    rw [signals, List.filterMap_append, List.filterMap_cons_some harm]
    rfl

end Signals

section Alerts

/-- A pass raises what is due. -/
theorem mem_statePass {now : ℤ} {st : RulesState} {e : Event} :
    e ∈ (statePass cfg now st).2 ↔ ∃ id, (pending st id).due now = some e ∧ cfg.Raises e := by
  rw [statePass]
  simp only [List.mem_filterMap, Prod.exists, Std.ExtTreeMap.mem_toList_iff_getElem?_eq_some,
    statePoll_raised]
  constructor
  · rintro ⟨id, state, hstate, hdue, hraises⟩
    refine ⟨id, ?_, hraises⟩
    rw [pending, hstate]
    exact hdue
  · rintro ⟨id, hdue, hraises⟩
    cases hstate : st[id]? with
    | none => simp [pending, hstate, due] at hdue
    | some state =>
      rw [pending, hstate] at hdue
      exact ⟨id, state, hstate, hdue, hraises⟩

/-- Every pending alert names its rule. -/
theorem pending_ruleId {log : List (Entry ρ)} {id : RuleId} {deadline : ℤ} {e : Event}
    (h : pending (replayLog host cfg ∅ log) id = some (deadline, e)) : e.ruleId = id := by
  obtain ⟨before, t, ev, rl, after, -, hid, -, -, -, -, rfl, -⟩ := pending_log_iff.mp h
  rw [← hid]
  rfl

/-- A pass raises at most one alert for a rule. -/
theorem nodup_ruleIds (now : ℤ) (log : List (Entry ρ)) :
    ((statePass cfg now (replayLog host cfg ∅ log)).2.map Event.ruleId).Nodup := by
  generalize hst : replayLog host cfg ∅ log = st
  have hids : ∀ entry ∈ st.toList, ∀ e, (statePoll cfg now entry.2).2 = some e →
      e.ruleId = entry.1 := by
    intro entry hmem e hpoll
    rw [Std.ExtTreeMap.mem_toList_iff_getElem?_eq_some] at hmem
    obtain ⟨hdue, -⟩ := (statePoll_raised now entry.2 e).mp hpoll
    obtain ⟨deadline, hpending, -⟩ := due_eq_some.mp hdue
    have hlog : pending (replayLog host cfg ∅ log) entry.1 = some (deadline, e) := by
      rw [hst, pending, hmem]
      exact hpending
    exact pending_ruleId hlog
  rw [statePass, List.Nodup, List.pairwise_map, List.pairwise_filterMap]
  refine List.Pairwise.imp_of_mem ?_ (Std.ExtTreeMap.distinct_keys_toList (t := st))
  intro entry entry' hmem hmem' hkeys e he e' he' heq
  rw [hids entry hmem e he, hids entry' hmem' e' he'] at heq
  exact hkeys (Std.LawfulEqCmp.compare_eq_iff_eq.mpr heq)

/-- The alerts of a pass in a log are those that were armed and not touched since. -/
theorem mem_alerts_iff {steps : List Step} {pre post : List (Entry ρ)} {now : ℤ}
    {alerts : List Event} (hlog : logOf host cfg rules steps = pre ++ .pass now alerts :: post)
    {e : Event} : e ∈ alerts ↔ ∃ before t ev rl after,
      pre = before ++ .act t (.check ev rl) :: after ∧ rl.HasUnless ∧ ev.ruleId ∈ rl.parentIds ∧
      t ≠ 0 ∧ t + rl.unlessRule.timeout.toNat < now ∧ e = ev.update rl ∧ cfg.Raises e ∧
      ∀ s ∈ signals rl.id after, s.Early (t + rl.unlessRule.timeout.toNat) := by
  rw [alerts_of_pass hlog, mem_statePass]
  constructor
  · rintro ⟨id, hdue, hraises⟩
    obtain ⟨deadline, hpending, hlt⟩ := due_eq_some.mp hdue
    obtain ⟨before, t, ev, rl, after, hpre, rfl, hunless, hparent, hzero, rfl, he, hearly⟩ :=
      pending_log_iff.mp hpending
    exact ⟨before, t, ev, rl, after, hpre, hunless, hparent, hzero, hlt, he, hraises, hearly⟩
  · rintro ⟨before, t, ev, rl, after, hpre, hunless, hparent, hzero, hlt, he, hraises, hearly⟩
    refine ⟨rl.id, due_eq_some.mpr ⟨_, pending_log_iff.mpr ?_, hlt⟩, hraises⟩
    exact ⟨before, t, ev, rl, after, hpre, rfl, hunless, hparent, hzero, rfl, he, hearly⟩

/-- While only early signals come, a rule is not checked under a parent or its unless rule. -/
theorem not_touched {rl : Rule ρ} (hunless : rl.HasUnless) {deadline : ℤ} {log : List (Entry ρ)}
    (hearly : ∀ s ∈ signals rl.id log, s.Early deadline) {t : ℤ} {ev : Event}
    (h : .act t (.check ev rl) ∈ log) :
    ev.ruleId ∉ rl.parentIds ∧ ev.ruleId ≠ rl.unlessRule.id := by
  have hsignal : ∀ s, signalOf rl.id (.act t (.check ev rl)) = some s → s.Early deadline :=
    fun s hs => hearly s (List.mem_filterMap.mpr ⟨_, h, hs⟩)
  rw [signalOf, if_pos ⟨rfl, hunless⟩] at hsignal
  by_cases hparent : ev.ruleId ∈ rl.parentIds
  · have harm := hsignal _ (if_pos hparent)
    by_cases hzero : t = 0
    · rw [if_pos hzero] at harm
      exact harm.elim
    · rw [if_neg hzero] at harm
      exact harm.elim
  · refine ⟨hparent, ?_⟩
    intro hother
    have hcancel := hsignal .cancel (by rw [if_neg hparent, if_pos hother])
    exact hcancel.elim

/-- Unless-alerts are never wrong and never doubled. In every run, an alert is that of an arming
whose time is over, and between the two the rule was not checked under a parent or its unless
rule and no alert was raised for it; and a pass raises at most one alert for a rule. -/
theorem alerts_right {steps : List Step} {pre post : List (Entry ρ)} {now : ℤ}
    {alerts : List Event} (hlog : logOf host cfg rules steps = pre ++ .pass now alerts :: post) :
    (alerts.map Event.ruleId).Nodup ∧
      ∀ e ∈ alerts, ∃ rl before t ev after, (∃ v ∈ rules.views, v.1 = rl) ∧ rl.HasUnless ∧
        pre = before ++ .act t (.check ev rl) :: after ∧ ev.ruleId ∈ rl.parentIds ∧
        t + rl.unlessRule.timeout.toNat < now ∧ e = ev.update rl ∧
        (∀ s ev', .act s (.check ev' rl) ∈ after →
          ev'.ruleId ∉ rl.parentIds ∧ ev'.ruleId ≠ rl.unlessRule.id) ∧
        ∀ s alerts', .pass s alerts' ∈ after → ∀ e' ∈ alerts', e'.ruleId ≠ rl.id := by
  refine ⟨alerts_of_pass hlog ▸ nodup_ruleIds now pre, ?_⟩
  intro e he
  obtain ⟨before, t, ev, rl, after, rfl, hunless, hparent, hzero, hlt, rfl, -, hearly⟩ :=
    (mem_alerts_iff hlog).mp he
  have hmem : ∃ v ∈ rules.views, v.1 = rl := by
    rw [List.append_assoc, List.cons_append] at hlog
    exact mem_views_of_act hlog
  refine ⟨rl, before, t, ev, after, hmem, hunless, rfl, hparent, hlt, rfl,
    fun s ev' hcheck => not_touched hunless hearly hcheck, ?_⟩
  intro s alerts' hpass e' he' hid
  obtain ⟨mid, rest, rfl⟩ := List.append_of_mem hpass
  have hlog' : logOf host cfg rules steps = (before ++ .act t (.check ev rl) :: mid) ++
      .pass s alerts' :: (rest ++ .pass now alerts :: post) := by
    rw [hlog]
    simp
  -- the alert has been pending for all that time, and its deadline was not over
  have hpending : pending (replayLog host cfg ∅ (before ++ .act t (.check ev rl) :: mid)) rl.id =
      some (t + rl.unlessRule.timeout.toNat, ev.update rl) := by
    refine pending_log_iff.mpr ⟨before, t, ev, rl, mid, rfl, rfl, hunless, hparent, hzero, rfl,
      rfl, ?_⟩
    intro x hx
    apply hearly x
    rw [signals, List.filterMap_append]
    exact List.mem_append_left _ hx
  have hpoll : s ≤ t + rl.unlessRule.timeout.toNat :=
    hearly (.poll s) (List.mem_filterMap.mpr ⟨_, hpass, rfl⟩)
  rw [alerts_of_pass hlog'] at he'
  obtain ⟨id, hdue, -⟩ := mem_statePass.mp he'
  obtain ⟨deadline, hpending', hlt'⟩ := due_eq_some.mp hdue
  have hid' : id = rl.id := (pending_ruleId hpending').symm.trans hid
  rw [hid', hpending, Option.some.injEq, Prod.mk.injEq] at hpending'
  omega

end Alerts

section Lost

variable {rl : Rule ρ}

/-- A check of a rule under a parent or its unless rule. -/
def touch (rl : Rule ρ) : Entry ρ → Option (ℤ × Event)
  | .act t (.check ev rl') =>
    if rl'.id = rl.id ∧ (ev.ruleId ∈ rl.parentIds ∨ ev.ruleId = rl.unlessRule.id) then some (t, ev)
    else none
  | .act _ (.fit _ _ _) => none
  | .pass _ _ => none

/-- The last such check in a log. -/
def lastTouch (rl : Rule ρ) (log : List (Entry ρ)) : Option (ℤ × Event) :=
  (log.filterMap (touch rl)).getLast?

theorem touch_eq_some {x : Entry ρ} {t : ℤ} {ev : Event} :
    touch rl x = some (t, ev) ↔ ∃ rl', x = .act t (.check ev rl') ∧ rl'.id = rl.id ∧
      (ev.ruleId ∈ rl.parentIds ∨ ev.ruleId = rl.unlessRule.id) := by
  constructor
  · intro h
    cases x with
    | pass now alerts => simp [touch] at h
    | act s a =>
      cases a with
      | fit ev' rl' c => simp [touch] at h
      | check ev' rl' =>
        rw [touch] at h
        split_ifs at h with hrule
        cases h
        exact ⟨rl', rfl, hrule⟩
  · rintro ⟨rl', rfl, hrule⟩
    rw [touch, if_pos hrule]

theorem lastTouch_eq_some {log : List (Entry ρ)} {t : ℤ} {ev : Event} :
    lastTouch rl log = some (t, ev) ↔ ∃ before rl' after,
      log = before ++ .act t (.check ev rl') :: after ∧ rl'.id = rl.id ∧
      (ev.ruleId ∈ rl.parentIds ∨ ev.ruleId = rl.unlessRule.id) ∧
      ∀ x ∈ after, touch rl x = none := by
  rw [lastTouch, List.getLast?_eq_some_iff]
  constructor
  · rintro ⟨ys, hys⟩
    obtain ⟨before, rest, rfl, -, hrest⟩ := List.filterMap_eq_append_iff.mp hys
    obtain ⟨skipped, x, after, rfl, -, hx, hafter⟩ := List.filterMap_eq_cons_iff.mp hrest
    obtain ⟨rl', rfl, hid, htouch⟩ := touch_eq_some.mp hx
    exact ⟨before ++ skipped, rl', after, by simp, hid, htouch,
      List.filterMap_eq_nil_iff.mp hafter⟩
  · rintro ⟨before, rl', after, rfl, hid, htouch, hafter⟩
    refine ⟨before.filterMap (touch rl), ?_⟩
    rw [List.filterMap_append, List.filterMap_cons_some (touch_eq_some.mpr ⟨rl', rfl, hid, htouch⟩),
      List.filterMap_eq_nil_iff.mpr hafter]

/-- The last check that touches a rule is no earlier than any other. -/
theorem last_behind {pre mid before after : List (Entry ρ)} {x y : Entry ρ}
    (hsplit : pre ++ x :: mid = before ++ y :: after) (hx : touch rl x ≠ none)
    (hafter : ∀ z ∈ after, touch rl z = none) : after ⊆ mid ∧ (y = x ∨ y ∈ mid) := by
  rcases append_cons_eq_append_cons hsplit with ⟨post', rfl⟩ | ⟨-, rfl, rfl⟩ | ⟨pre', -, rfl⟩
  · rw [List.append_assoc, List.cons_append, List.append_cancel_left_eq, List.cons.injEq] at hsplit
    exact absurd (hafter x (hsplit.2 ▸ List.mem_append_right _ List.mem_cons_self)) hx
  · exact ⟨List.Subset.refl _, .inl rfl⟩
  · exact ⟨fun z hz => by simp [hz], .inr (by simp)⟩

/-- A signal for a rule comes from a pass or from a check that touches it. -/
theorem signal_cases {log : List (Entry ρ)} (hlog : Coherent rl log)
    (hnone : ∀ x ∈ log, touch rl x = none) {s : Signal Event} (hs : s ∈ signals rl.id log) :
    ∃ now alerts, .pass now alerts ∈ log ∧ s = .poll now := by
  obtain ⟨x, hx, hsignal⟩ := List.mem_filterMap.mp hs
  cases x with
  | pass now alerts =>
    simp only [signalOf, Option.some.injEq] at hsignal
    exact ⟨now, alerts, hx, hsignal.symm⟩
  | act t a =>
    cases a with
    | fit ev rl' c => simp [signalOf] at hsignal
    | check ev rl' =>
      have huntouched := hnone _ hx
      rw [signalOf] at hsignal
      by_cases hrule : rl'.id = rl.id ∧ rl'.HasUnless
      · rw [if_pos hrule] at hsignal
        have heq : rl' = rl := hlog t _ hx hrule.1
        subst heq
        have hnot : ¬ (ev.ruleId ∈ rl'.parentIds ∨ ev.ruleId = rl'.unlessRule.id) := by
          intro htouch
          rw [touch, if_pos ⟨rfl, htouch⟩] at huntouched
          cases huntouched
        rw [not_or] at hnot
        rw [if_neg hnot.1, if_neg hnot.2] at hsignal
        cases hsignal
      · rw [if_neg hrule] at hsignal
        cases hsignal

/-- The alert is pending at the end of a log, with its time over: the last check of the rule
armed it. -/
def Rule.StillPending (rl : Rule ρ) (log : List (Entry ρ)) (now : ℤ) (e : Event) : Prop :=
  ∃ t ev, lastTouch rl log = some (t, ev) ∧ ev.ruleId ∈ rl.parentIds ∧ t ≠ 0 ∧
    t + rl.unlessRule.timeout.toNat < now ∧ e = ev.update rl

/-- No pending unless-alert is lost as long as nothing touches it. In every run, the first pass
after the time of an arming is over raises its alert, if its priority suffices, exactly if the
last check of the rule before the pass is an arming whose time is over, for the same alert; in
particular if the rule was not checked again. -/
theorem pending_raised_iff {roots : List XMLNode} (h : parseFiles host roots = .ok rules)
    (hmem : ∃ v ∈ rules.views, v.1 = rl) (hunless : rl.HasUnless) {steps : List Step}
    (hclock : InOrder steps) {pre mid post : List (Entry ρ)} {t now : ℤ} {ev : Event}
    {alerts : List Event}
    (hlog : logOf host cfg rules steps =
      (pre ++ .act t (.check ev rl) :: mid) ++ .pass now alerts :: post)
    (harmed : ev.ruleId ∈ rl.parentIds)
    (hfirst : ∀ s alerts', .pass s alerts' ∈ mid → s ≤ t + rl.unlessRule.timeout.toNat) :
    (cfg.Raises (ev.update rl) → ev.update rl ∈ alerts) ↔
      (cfg.Raises (ev.update rl) →
        rl.StillPending (pre ++ .act t (.check ev rl) :: mid) now (ev.update rl)) := by
  have hcoherent : Coherent rl (pre ++ .act t (.check ev rl) :: mid) := by
    have hall : Coherent rl (logOf host cfg rules steps) :=
      coherent_log (parseFiles_valid h) hmem steps
    rw [hlog] at hall
    exact hall.subset (List.subset_append_left _ _)
  constructor
  · intro hraised hraises
    obtain ⟨before, t', ev', rl', after, hpre, hunless', hparent, hzero, hlt, heq, -, hearly⟩ :=
      (mem_alerts_iff hlog).mp (hraised hraises)
    have hid : rl'.id = rl.id := (congrArg Event.ruleId heq).symm
    have hrule : rl' = rl := hcoherent t' (.check ev' rl') (by simp [hpre]) hid
    subst hrule
    refine ⟨t', ev', lastTouch_eq_some.mpr ⟨before, rl', after, hpre, rfl, .inl hparent, ?_⟩,
      hparent, hzero, hlt, heq⟩
    intro x hx
    by_contra htouch
    obtain ⟨⟨s, ev''⟩, hsome⟩ := Option.ne_none_iff_exists'.mp htouch
    obtain ⟨rl'', rfl, hid'', htouch''⟩ := touch_eq_some.mp hsome
    have hrule : rl'' = rl' := hcoherent s (.check ev'' rl'') (by simp [hpre, hx]) hid''
    subst hrule
    obtain ⟨hnot, hnot'⟩ := not_touched hunless hearly hx
    exact htouch''.elim hnot hnot'
  · intro hpending hraises
    obtain ⟨t', ev', hlast, hparent, hzero, hlt, heq⟩ := hpending hraises
    obtain ⟨before, rl', after, hpre, hid, -, hafter⟩ := lastTouch_eq_some.mp hlast
    have hrule : rl' = rl := hcoherent t' (.check ev' rl') (by simp [hpre]) hid
    subst hrule
    have hself : touch rl' (.act t (.check ev rl')) ≠ none := by
      rw [touch, if_pos ⟨rfl, .inl harmed⟩]
      exact Option.some_ne_none _
    obtain ⟨hsub, hlater⟩ := last_behind hpre hself hafter
    have hle : t ≤ t' := by
      rcases hlater with heq' | hmem'
      · cases heq'
        exact le_rfl
      · have hsorted : (logOf host cfg rules steps).Pairwise fun x y => x.now ≤ y.now := hclock.log
        rw [hlog, List.append_assoc, List.cons_append] at hsorted
        have hbehind := (List.pairwise_cons.mp (List.pairwise_append.mp hsorted).2.1).1
        exact hbehind (.act t' (.check ev' rl')) (List.mem_append_left _ hmem')
    refine (mem_alerts_iff hlog).mpr ⟨before, t', ev', rl', after, hpre, hunless, hparent, hzero,
      hlt, heq, hraises, ?_⟩
    intro s hs
    have hcoherent' : Coherent rl' after :=
      hcoherent.subset (hpre ▸ List.subset_append_of_subset_right _ (List.subset_cons_self _ _))
    obtain ⟨s', alerts', hpass, rfl⟩ := signal_cases hcoherent' hafter hs
    have hpoll := hfirst s' alerts' (hsub hpass)
    have hearly : s' ≤ t' + rl'.unlessRule.timeout.toNat := by omega
    exact hearly

theorem stillPending_of_untouched {pre mid : List (Entry ρ)} {t now : ℤ} {ev : Event}
    (harmed : ev.ruleId ∈ rl.parentIds) (hzero : t ≠ 0)
    (hlate : t + rl.unlessRule.timeout.toNat < now) (hmid : ∀ x ∈ mid, touch rl x = none) :
    rl.StillPending (pre ++ .act t (.check ev rl) :: mid) now (ev.update rl) :=
  ⟨t, ev, lastTouch_eq_some.mpr ⟨pre, rl, mid, rfl, rfl, .inl harmed, hmid⟩, harmed, hzero, hlate,
    rfl⟩

end Lost

section Waiting

/-- A rule that waits for a stop after a start. -/
def waitingFile : XMLNode := { name := "rule_group", children := [
  { name := "rule", attributes := [("id", "1"), ("priority", "1")],
    children := [{ name := "regex", value := "start" }] },
  { name := "rule", attributes := [("id", "2"), ("priority", "1")],
    children := [{ name := "regex", value := "stop" }] },
  { name := "rule", attributes := [("id", "3"), ("priority", "8")], children := [
    { name := "if_rule", value := "1" },
    { name := "unless_rule", attributes := [("timeout", "2")], value := "2" }] }] }

def waitingRules : RuleCfg PlainRegex := plainRules [waitingFile]

def waitingRule : Rule PlainRegex :=
  ((waitingRules.views.map Prod.fst).find? fun rl => rl.id = 3).getD {}

def start : SourceEvent := { message := "start" }

def stop : SourceEvent := { message := "stop" }

/-- The times at which a rule is checked, and under which rules. -/
def checkedUnder (rl : Rule ρ) (log : List (Entry ρ)) : List (ℤ × RuleId) :=
  (log.filterMap (touch rl)).map fun p => (p.1, p.2.ruleId)

/-- The passes with the rules for which they raise alerts. -/
def raisedFor (log : List (Entry ρ)) : List (ℤ × List RuleId) :=
  log.filterMap fun
    | .act _ _ => none
    | .pass now alerts => some (now, alerts.map Event.ruleId)

/-- A start at the time one is not followed by a stop within two seconds, but by another start
before the next pass, or by a stop after that time and before the next pass. No alert is
raised. -/
theorem waiting_lost :
    (parseFiles plainHost [waitingFile]).isOk = true ∧
      waitingRule.parentIds = [1] ∧ waitingRule.unlessRule = { id := 2, timeout := 2 } ∧
      checkedUnder waitingRule
        (logOf plainHost {} waitingRules [.call 1 start, .call 3 start, .pass 4]) =
          [(1, 1), (3, 1)] ∧
      raisedFor (logOf plainHost {} waitingRules [.call 1 start, .call 3 start, .pass 4]) =
        [(4, [])] ∧
      checkedUnder waitingRule
        (logOf plainHost {} waitingRules [.call 1 start, .call 4 stop, .pass 5]) =
          [(1, 1), (4, 2)] ∧
      raisedFor (logOf plainHost {} waitingRules [.call 1 start, .call 4 stop, .pass 5]) =
        [(5, [])] := by
  decide +kernel

theorem waiting_accepted : parseFiles plainHost [waitingFile] = .ok waitingRules :=
  plainRules_eq (by decide +kernel)

theorem waiting_mem : ∃ v ∈ waitingRules.views, v.1 = waitingRule := by
  have hsome : ((waitingRules.views.map Prod.fst).find? fun rl => rl.id = 3).isSome = true := by
    decide +kernel
  obtain ⟨rl, hrl⟩ := Option.isSome_iff_exists.mp hsome
  have heq : waitingRule = rl := by rw [waitingRule, hrl, Option.getD_some]
  rw [heq]
  exact List.mem_map.mp (List.mem_of_find?_eq_some hrl)

/-- A start arms the rule. -/
theorem waiting_armed : ∃ pre mid ev,
    logOf plainHost {} waitingRules [.call 1 start] =
      pre ++ .act 1 (.check ev waitingRule) :: mid ∧ ev.ruleId ∈ waitingRule.parentIds ∧
      ∀ x ∈ mid, touch waitingRule x = none := by
  have hchecked : checkedUnder waitingRule (logOf plainHost {} waitingRules [.call 1 start]) =
      [(1, 1)] := by
    decide +kernel
  obtain ⟨p, rest, htouches, hp, hrest⟩ := List.map_eq_cons_iff.mp hchecked
  obtain ⟨t, ev⟩ := p
  rw [List.map_eq_nil_iff.mp hrest] at htouches
  obtain ⟨rfl, hid⟩ := Prod.mk.inj hp
  have hlast : lastTouch waitingRule (logOf plainHost {} waitingRules [.call 1 start]) =
      some (1, ev) := by
    rw [lastTouch, htouches]
    rfl
  obtain ⟨pre, rl, mid, hlog, hrule, -, hmid⟩ := lastTouch_eq_some.mp hlast
  have hcoherent : Coherent waitingRule (logOf plainHost {} waitingRules [.call 1 start]) :=
    coherent_log (parseFiles_valid waiting_accepted) waiting_mem _
  have heq : rl = waitingRule := hcoherent 1 (.check ev rl) (by simp [hlog]) hrule
  rw [heq] at hlog
  have hparents : waitingRule.parentIds = [1] := by decide +kernel
  exact ⟨pre, mid, ev, hlog, by rw [hparents, hid]; exact List.mem_singleton_self _, hmid⟩

/-- The run of a start and a pass after the time is over. -/
theorem waiting_passed : ∃ pre mid ev alerts,
    logOf plainHost {} waitingRules [.call 1 start, .pass 4] =
      (pre ++ .act 1 (.check ev waitingRule) :: mid) ++ .pass 4 alerts :: [] ∧
      ev.ruleId ∈ waitingRule.parentIds ∧ (∀ x ∈ mid, touch waitingRule x = none) ∧
      ∀ s alerts', .pass s alerts' ∈ mid → s ≤ 1 := by
  obtain ⟨pre, mid, ev, hlog, hparent, hmid⟩ := waiting_armed
  refine ⟨pre, mid, ev, (statePass {} 4 (stateAfter plainHost {} waitingRules [.call 1 start])).2,
    ?_, hparent, hmid, ?_⟩
  · have hconcat := @logOf_concat _ plainHost {} waitingRules [.call 1 start] (.pass 4)
    rw [hlog] at hconcat
    exact hconcat
  · intro s alerts' hpass
    have hmem : .pass s alerts' ∈ logOf plainHost {} waitingRules [.call 1 start] := by
      simp [hlog, hpass]
    obtain ⟨step, hstep, hnow⟩ := exists_step_of_mem hmem
    rw [List.mem_singleton.mp hstep] at hnow
    exact hnow.symm.le

theorem pending_raised_iff_waiting : ∃ pre mid ev alerts,
    logOf plainHost {} waitingRules [.call 1 start, .pass 4] =
      (pre ++ .act 1 (.check ev waitingRule) :: mid) ++ .pass 4 alerts :: [] ∧
      ev.update waitingRule ∈ alerts := by
  obtain ⟨pre, mid, ev, alerts, hlog, hparent, hmid, hpasses⟩ := waiting_passed
  have hclock : InOrder [.call 1 start, .pass 4] := by decide +kernel
  have hunless : waitingRule.HasUnless := by decide +kernel
  have htimeout : waitingRule.unlessRule.timeout.toNat = 2 := by decide +kernel
  have hraises : ResearchConfig.Raises {} (ev.update waitingRule) := .inl (UInt16.zero_le)
  have hfirst : ∀ (s : ℤ) alerts', .pass s alerts' ∈ mid →
      s ≤ 1 + waitingRule.unlessRule.timeout.toNat := by
    intro s alerts' hpass
    have hle := hpasses s alerts' hpass
    omega
  have hiff := pending_raised_iff waiting_accepted waiting_mem hunless hclock hlog hparent hfirst
  refine ⟨pre, mid, ev, alerts, hlog, hiff.mpr (fun _ => ?_) hraises⟩
  exact stillPending_of_untouched hparent (by decide) (by rw [htimeout]; decide) hmid

/-- The first start is followed by a stop, the second one by two passes, one before and one after
its time is over. -/
def twoStarts : List Step := [.call 1 start, .call 2 stop, .call 5 start, .pass 6]

/-- The last pass raises one alert, for the second start. -/
theorem alerts_right_twoStarts : ∃ pre alerts,
    logOf plainHost {} waitingRules (twoStarts ++ [.pass 8]) = pre ++ .pass 8 alerts :: [] ∧
      alerts.map Event.ruleId = [3] ∧ (alerts.map Event.ruleId).Nodup ∧
      ∀ e ∈ alerts, ∃ rl before, ∃ t : ℤ, ∃ ev after,
        (∃ v ∈ waitingRules.views, v.1 = rl) ∧ rl.HasUnless ∧
        pre = before ++ .act t (.check ev rl) :: after ∧ ev.ruleId ∈ rl.parentIds ∧
        t + rl.unlessRule.timeout.toNat < 8 ∧ e = ev.update rl ∧
        (∀ s ev', .act s (.check ev' rl) ∈ after →
          ev'.ruleId ∉ rl.parentIds ∧ ev'.ruleId ≠ rl.unlessRule.id) ∧
        ∀ s alerts', .pass s alerts' ∈ after → ∀ e' ∈ alerts', e'.ruleId ≠ rl.id := by
  have hlog := @logOf_concat _ plainHost {} waitingRules twoStarts (.pass 8)
  have hids : ((statePass {} 8 (stateAfter plainHost {} waitingRules twoStarts)).2).map
      Event.ruleId = [3] := by decide +kernel
  exact ⟨_, _, hlog, hids, alerts_right hlog⟩

end Waiting

end Ctguard
