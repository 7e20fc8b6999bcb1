import Ctguard.GroupRule
import Ctguard.NormalReturn
import Ctguard.SlidingWindow
import Ctguard.StateTask

/-!
# The activation window

What a rule with an activation group has stored after its check is the sliding window of
the events that carried the group when the group rules were checked. The program keeps
the window with arrivals before the other conditions and expiry at the next check only,
and has a branch of its own for a rule without state; a run under a clock that does not go
back shows none of that.
-/

namespace Ctguard

open SlidingWindow

variable {ρ : Type} {host : Host ρ} {cfg : ResearchConfig} {rules : RuleCfg ρ} {now : ℤ}
  {rl : Rule ρ}

section Store

/-- The events stored for a rule, none if it has no state. -/
def stored (st : RulesState) (id : RuleId) : List (ℤ × Event) :=
  (st[id]?.map RuleState.mevents).getD []

@[simp] theorem stored_empty (id : RuleId) : stored ∅ id = [] := by
  simp [stored]

@[simp] theorem stored_insert (st : RulesState) (id : RuleId) (state : RuleState) :
    stored (st.insert id state) id = state.mevents := by
  simp [stored]

theorem stored_congr {st st' : RulesState} {id : RuleId} (h : st'[id]? = st[id]?) :
    stored st' id = stored st id := by
  rw [stored, stored, h]

/-- Whether an event is one that a rule counts. -/
def Rule.Counts (rl : Rule ρ) (ev : Event) : Prop := rl.activationGroup.groupName ∈ ev.groups

instance (rl : Rule ρ) (ev : Event) : Decidable (rl.Counts ev) := inferInstanceAs (Decidable (_ ∈ _))

/-- The time for which a rule counts an event. -/
def Rule.span (rl : Rule ρ) : ℤ := rl.activationGroup.time.toNat

/-- A check of a counting rule stores the event and forgets what is too old. -/
theorem stored_checkActivation (h : rl.HasActivation) (ev : Event) (st : RulesState) :
    stored (checkActivation now ev rl st).1 rl.id = expire rl.span now
      (if rl.Counts ev then arrive now ev (stored st rl.id) else stored st rl.id) := by
  have hspan : 0 ≤ rl.span := Int.natCast_nonneg _
  rw [checkActivation, if_pos h]
  cases hstate : st[rl.id]? with
  | none =>
    have hnil : stored st rl.id = [] := by simp [stored, hstate]
    rw [hnil]
    by_cases hfound : rl.Counts ev
    · have hfresh : ¬ now + rl.span < now := by omega
      have hmem : rl.activationGroup.groupName ∈ ev.groups := hfound
      simp [hfound, hmem, emplaceEvent, arrive, expire, hfresh]
    · have hnot : rl.activationGroup.groupName ∉ ev.groups := hfound
      simp [hfound, hnot, expire, hnil]
  | some state =>
    have hstored : stored st rl.id = state.mevents := by simp [stored, hstate]
    rw [hstored]
    by_cases hfound : rl.Counts ev
    · have hmem : rl.activationGroup.groupName ∈ ev.groups := hfound
      simp only [hfound, hmem, decide_true, if_true, stored_insert]
      rfl
    · have hnot : rl.activationGroup.groupName ∉ ev.groups := hfound
      simp only [hfound, hnot, decide_false, if_false, Bool.false_eq_true, stored_insert]
      rfl

theorem stored_check (hact : rl.HasActivation) (hunless : ¬ rl.HasUnless) (ev : Event)
    (st : RulesState) :
    stored ((Act.check ev rl).apply host now st) rl.id = expire rl.span now
      (if rl.Counts ev then arrive now ev (stored st rl.id) else stored st rl.id) := by
  rw [Act.apply, checkRule, if_neg hunless]
  exact stored_checkActivation hact ev st

/-- Whether a rule is active is told by what it has stored after the check, also if it had no
state before. -/
theorem checkActivation_eq_activeBy (h : rl.HasActivation)
    (hrate : 2 ≤ rl.activationGroup.rate) (ev : Event) (st : RulesState) :
    (checkActivation now ev rl st).2.isActive =
        (activeBy ev rl (stored (checkActivation now ev rl st).1 rl.id)).1 ∧
      (checkActivation now ev rl st).2.traits =
        (activeBy ev rl (stored (checkActivation now ev rl st).1 rl.id)).2 := by
  rw [UInt16.le_iff_toNat_le] at hrate
  have htwo : (2 : UInt16).toNat = 2 := rfl
  rw [htwo] at hrate
  cases hstate : st[rl.id]? with
  | none =>
    have hfew : (stored (checkActivation now ev rl st).1 rl.id).length ≤ 1 := by
      rw [stored_checkActivation h]
      have hnil : stored st rl.id = [] := by simp [stored, hstate]
      refine (List.Sublist.length_le (expire_sublist _ _ _)).trans ?_
      rw [hnil]
      split_ifs
      · simp [arrive]
      · simp
    have hnot : ¬ rl.activationGroup.rate.toNat ≤
        (stored (checkActivation now ev rl st).1 rl.id).length := by omega
    rw [activeBy, if_neg hnot]
    simp [checkActivation, h, hstate]
  | some state =>
    simp [checkActivation, h, hstate]

/-- Choosing a rule that does not reset changes no state. -/
theorem updateState_of_not_reset (h : rl.activationGroup.reset = false) (st : RulesState)
    (ev : Event) : updateState st rl ev = st := by
  simp [updateState, h]

/-- Being chosen adds nothing. -/
theorem stored_updateState_sublist (st : RulesState) (ev : Event) :
    (stored (updateState st rl ev) rl.id).Sublist (stored st rl.id) := by
  rw [updateState]
  by_cases hreset : rl.HasActivation ∧ rl.activationGroup.reset = true
  · rw [if_pos hreset]
    cases hstate : st[rl.id]? with
    | none => exact List.Sublist.refl _
    | some state =>
      have hstored : stored st rl.id = state.mevents := by simp [stored, hstate]
      rw [hstored]
      by_cases hsame : rl.sameField = ""
      · simp [hsame]
      · cases hvalue : ev.fields[rl.sameField]? with
        | none => simp [hsame, hstored]
        | some value =>
          simp only [hsame, if_false, stored_insert]
          exact List.filter_sublist
  · rw [if_neg hreset]

theorem stored_statePass (st : RulesState) (id : RuleId) :
    stored (statePass cfg now st).1 id = stored st id := by
  rw [stored, stored, statePass]
  simp only [Std.ExtTreeMap.getElem?_map, Option.map_map]
  congr 2
  funext state
  simp only [Function.comp_apply, statePoll]
  split_ifs
  all_goals rfl

end Store

section Run

theorem stored_replay_of_ne {acts : List (Act ρ)} {id : RuleId} (h : ∀ a ∈ acts, a.rule.id ≠ id)
    (st : RulesState) : stored (replay host now st acts) id = stored st id :=
  stored_congr (replay_getElem? host now h st)

/-- Being chosen does not touch what a rule has stored, unless it resets. -/
theorem stored_replay_fits (hreset : rl.activationGroup.reset = false) {ev : Event}
    {acts : List (Act ρ)} (h : ∀ a ∈ acts, a.rule.id = rl.id → ∃ c, a = .fit ev rl c)
    (st : RulesState) : stored (replay host now st acts) rl.id = stored st rl.id := by
  induction acts generalizing st with
  | nil => rfl
  | cons a acts ih =>
    obtain ⟨ha, hacts⟩ := List.forall_mem_cons.mp h
    rw [replay_cons, ih hacts]
    by_cases hid : a.rule.id = rl.id
    · obtain ⟨c, rfl⟩ := ha hid
      rw [Act.apply, updateState_of_not_reset hreset]
    · exact stored_congr (Act.apply_getElem? host now hid st)

/-- The events that a rule counts among those of a history that are not too old. -/
def Rule.inWindow (rl : Rule ρ) (now : ℤ) (history : List (ℤ × Event)) : List (ℤ × Event) :=
  window rl.span now (history.filter fun e => rl.Counts e.2)

theorem Rule.inWindow_concat (rl : Rule ρ) (now : ℤ) (history : List (ℤ × Event)) (ev : Event) :
    rl.inWindow now (history ++ [(now, ev)]) =
      rl.inWindow now history ++ if rl.Counts ev then [(now, ev)] else [] := by
  have hspan : now ≤ now + rl.span := by
    have h : 0 ≤ rl.span := Int.natCast_nonneg _
    omega
  rw [Rule.inWindow, Rule.inWindow, List.filter_append, window_append]
  by_cases h : rl.Counts ev <;> simp [h, window, hspan]

/-- The store of a rule is sorted, and its window is that of the history. -/
structure Tracks (rl : Rule ρ) (steps : List Step) (history : List (ℤ × Event))
    (store : List (ℤ × Event)) : Prop where
  sorted : Sorted store
  past : ∀ e ∈ store, ∃ s ∈ steps, s.now = e.1
  window_eq : ∀ now, (∀ s ∈ steps, s.now ≤ now) →
    window rl.span now store = rl.inWindow now history

/-- What a check makes of a store that tracks the history. -/
theorem Tracks.check {steps : List Step} {history store : List (ℤ × Event)}
    (h : Tracks rl steps history store) (hnow : ∀ s ∈ steps, s.now ≤ now) (ev : Event) :
    expire rl.span now (if rl.Counts ev then arrive now ev store else store) =
      rl.inWindow now (history ++ [(now, ev)]) := by
  have hpast : ∀ e ∈ store, e.1 ≤ now := by
    intro e he
    obtain ⟨s, hs, heq⟩ := h.past e he
    exact heq ▸ hnow s hs
  have hspan : now ≤ now + rl.span := by
    have h : 0 ≤ rl.span := Int.natCast_nonneg _
    omega
  rw [rl.inWindow_concat, ← h.window_eq now hnow]
  by_cases hcounts : rl.Counts ev
  · rw [if_pos hcounts, if_pos hcounts, expire_arrive h.sorted hpast, window_append]
    simp [window, hspan]
  · rw [if_neg hcounts, if_neg hcounts, expire_eq_window h.sorted, List.append_nil]

theorem Tracks.concat_call {steps : List Step} {history store : List (ℤ × Event)}
    (h : Tracks rl steps history store) (hnow : ∀ s ∈ steps, s.now ≤ now) (se : SourceEvent)
    (ev : Event) :
    Tracks rl (steps ++ [.call now se]) (history ++ [(now, ev)])
      (rl.inWindow now (history ++ [(now, ev)])) := by
  refine ⟨?_, ?_, ?_⟩
  · rw [← h.check hnow ev]
    refine Sorted.sublist ?_ (expire_sublist _ _ _)
    split_ifs
    · exact h.sorted.arrive now ev
    · exact h.sorted
  · intro e he
    rw [rl.inWindow_concat, ← h.window_eq now hnow] at he
    rcases List.mem_append.mp he with he | he
    · obtain ⟨s, hs, heq⟩ := h.past e (mem_window.mp he).1
      exact ⟨s, List.mem_append_left _ hs, heq⟩
    · have heq : e = (now, ev) := by
        split_ifs at he
        · exact List.mem_singleton.mp he
        · simp at he
      exact ⟨.call now se, by simp, by rw [heq]; rfl⟩
  · intro later hlater
    have hle : now ≤ later := hlater (.call now se) (by simp)
    exact window_window hle _

variable (hgroup : GroupRule rules rl) (hrules : rules.Valid host)
  (hreset : rl.activationGroup.reset = false)

include hgroup hrules hreset

/-- In every run what a rule has stored tracks the events of its group. -/
theorem tracks_run {steps : List Step} (hclock : InOrder steps)
    (hreturns : Returns host cfg rules steps) :
    Tracks rl steps (groupEvents host cfg rules steps)
      (stored (stateAfter host cfg rules steps) rl.id) := by
  induction steps using List.reverseRecOn with
  | nil => exact ⟨by simp [Sorted], by simp, by simp [window, Rule.inWindow, groupEvents, collect]⟩
  | append_singleton steps step ih =>
    obtain ⟨hsteps, hle⟩ := hclock.concat
    have hbefore := ih hsteps hreturns.concat
    cases step with
    | pass now =>
      rw [stateAfter_concat, groupEvents_pass, Step.run]
      simp only
      rw [stored_statePass]
      refine ⟨hbefore.sorted, ?_, ?_⟩
      · intro e he
        obtain ⟨s, hs, heq⟩ := hbefore.past e he
        exact ⟨s, List.mem_append_left _ hs, heq⟩
      · intro later hlater
        exact hbefore.window_eq later fun s hs => hlater s (List.mem_append_left _ hs)
    | call now se =>
      obtain ⟨e, hok⟩ := hreturns.last
      rcases hgroup.call_cases hrules with ⟨-, hnot⟩ |
        ⟨ge, gs, pre, post, henter, htrace, hpre, hpost⟩
      · exact absurd hok (hnot e)
      · have hstore : stored (stateAfter host cfg rules (steps ++ [.call now se])) rl.id =
            rl.inWindow now (groupEvents host cfg rules steps ++ [(now, ge)]) := by
          rw [stateAfter_concat, Step.run]
          simp only
          rw [processLog_replay, htrace, replay_append, replay_cons,
            stored_replay_fits hreset hpost, stored_check hgroup.activation hgroup.noUnless,
            stored_replay_of_ne hpre]
          exact hbefore.check hle ge
        rw [hstore, groupEvents_call, henter]
        exact hbefore.concat_call hle se ge

/-- What a rule has stored right after its check is the window of its events. -/
theorem stored_after_check {steps : List Step} {se : SourceEvent}
    (hclock : InOrder (steps ++ [.call now se])) (hreturns : Returns host cfg rules steps)
    {ev : Event} {pre post : List (Act ρ)}
    (htrace : (processLog host now se rules (stateAfter host cfg rules steps)).trace =
      pre ++ .check ev rl :: post) :
    stored (checkActivation now ev rl (replay host now (stateAfter host cfg rules steps) pre)).1
        rl.id = rl.inWindow now (groupEvents host cfg rules steps ++ [(now, ev)]) := by
  obtain ⟨hsteps, hle⟩ := hclock.concat
  obtain ⟨-, hpre, -⟩ := hgroup.check_cases hrules htrace
  have htracks := tracks_run hgroup hrules hreset hsteps hreturns
  rw [stored_checkActivation hgroup.activation, stored_replay_of_ne hpre]
  exact htracks.check hle ev

end Run

section Exact

/-- The activation window is exact. In every run, right after a counting rule has been checked
it has stored the events so far that carried the group and are not too old, it is active exactly
if there are enough, and if it is then chosen its trait lists them. -/
theorem activationWindow_exact {roots : List XMLNode} (h : parseFiles host roots = .ok rules)
    (hgroup : GroupRule rules rl) (hsame : rl.sameField = "")
    (hreset : rl.activationGroup.reset = false) {steps : List Step} {se : SourceEvent}
    (hclock : InOrder (steps ++ [.call now se])) (hreturns : Returns host cfg rules steps)
    {ev : Event} {pre post : List (Act ρ)}
    (htrace : (processLog host now se rules (stateAfter host cfg rules steps)).trace =
      pre ++ .check ev rl :: post) :
    let st := replay host now (stateAfter host cfg rules steps) pre
    let st' := replay host now (stateAfter host cfg rules steps) (pre ++ [.check ev rl])
    let events := rl.inWindow now (groupEvents host cfg rules steps ++ [(now, ev)])
    1 ≤ rl.activationGroup.time ∧ 2 ≤ rl.activationGroup.rate ∧
      (∃ gs, enterGroups host now se rules (stateAfter host cfg rules steps) = some (ev, gs)) ∧
      stored st' rl.id = events ∧
      ((checkActivation now ev rl st).2.isActive = true ↔
        rl.activationGroup.rate.toNat ≤ events.length) ∧
      ∀ e c, .fit e rl c ∈ post →
        (updateEvent e rl c).traits["trigger_logs"]? = some (triggerLogs events) := by
  intro st st' events
  have hrules := parseFiles_valid h
  have hrl := hgroup.valid hrules
  obtain ⟨hentered, hpre, hpost⟩ := hgroup.check_cases hrules htrace
  have hstored := stored_after_check hgroup hrules hreset hclock hreturns htrace
  have hrate := hrl.rate hgroup.activation
  obtain ⟨hactive, htraits⟩ := @checkActivation_eq_activeBy _ now _ hgroup.activation hrate ev st
  have hactiveBy : activeBy ev rl events = if rl.activationGroup.rate.toNat ≤ events.length then
      (true, [("trigger_logs", triggerLogs events)]) else (false, []) := by
    simp [activeBy, hsame]
  rw [hstored, hactiveBy] at hactive htraits
  refine ⟨hrl.time hgroup.activation, hrate, hentered, ?_, ?_, ?_⟩
  · simp only [st', replay_append, replay_cons, replay_nil, Act.apply, checkRule,
      if_neg hgroup.noUnless]
    exact hstored
  · rw [hactive]
    split_ifs with hmany <;> simp [hmany]
  · intro e c hfit
    obtain ⟨rfl, hcheck, hm⟩ := hgroup.fit_checked hrules htrace hfit
    obtain ⟨-, -, hisActive, hc, -⟩ := checkRule_matched (Prod.ext rfl hcheck) hm
    rw [hisActive] at hactive
    split_ifs at hactive htraits with hmany
    rw [updateEvent, hc, htraits]
    simp [assign]

/-- A login extracts the user, and a rule with the given settings counts logins. -/
def countingFile (settings : List XMLNode) : XMLNode := { name := "rule_group", children := [
  { name := "group", value := "auth" },
  { name := "rule", attributes := [("id", "1"), ("priority", "1")], children := [
    { name := "regex", value := "login (.*)" },
    { name := "fields", value := "user" },
    { name := "group", value := "auth" }] },
  { name := "rule", attributes := [("id", "2"), ("priority", "3")], children := settings }] }

def countingRules (settings : List XMLNode) : RuleCfg PlainRegex :=
  plainRules [countingFile settings]

def countingRule (settings : List XMLNode) : Rule PlainRegex :=
  ((countingRules settings).groupRules.map RoseTree.root).headD {}

/-- Two logins within a minute. -/
def twoLogins : XMLNode :=
  { name := "activation_group", attributes := [("time", "60"), ("rate", "2")], value := "auth" }

def login (user : String) : SourceEvent := { message := "login " ++ user }

theorem groupRule_of_settings {settings : List XMLNode}
    (hsome : (countingRules settings).groupRules.isEmpty = false)
    (hact : (countingRule settings).HasActivation) (hunless : ¬ (countingRule settings).HasUnless) :
    GroupRule (countingRules settings) (countingRule settings) := by
  refine ⟨?_, hact, hunless⟩
  cases hroots : (countingRules settings).groupRules with
  | nil => simp [hroots] at hsome
  | cons t ts =>
    have hview : t.view ∈ RoseTree.views (countingRules settings).groupRules :=
      RoseTree.view_mem_views (hroots ▸ List.mem_cons_self)
    refine ⟨t.view, List.mem_append_right _ hview, ?_⟩
    rw [countingRule, hroots]
    rfl

theorem twoLogins_groupRule : GroupRule (countingRules [twoLogins]) (countingRule [twoLogins]) :=
  groupRule_of_settings (by decide +kernel) (by decide +kernel) (by decide +kernel)

theorem returns_of_clean (hrules : rules.Valid host) (hclean : rules.Clean host)
    (steps : List Step) : Returns host cfg rules steps :=
  fun _ now se _ _ => processLog_returns hrules hclean now se _

/-- A counting rule is checked in a call that returns. -/
theorem GroupRule.exists_check (hgroup : GroupRule rules rl) (hrules : rules.Valid host)
    {se : SourceEvent} {st : RulesState} {e : Event}
    (h : (processLog host now se rules st).result = .ok e) :
    ∃ ev pre post, (processLog host now se rules st).trace = pre ++ .check ev rl :: post := by
  rcases hgroup.call_cases hrules with ⟨-, hnot⟩ | ⟨ge, -, pre, post, -, htrace, -⟩
  · exact absurd h (hnot e)
  · exact ⟨ge, pre, post, htrace⟩

theorem activationWindow_exact_twoLogins :
    ∃ ev pre post,
      (processLog plainHost 3 (login "bob") (countingRules [twoLogins])
        (stateAfter plainHost {} (countingRules [twoLogins]) [.call 1 (login "eve")])).trace =
          pre ++ .check ev (countingRule [twoLogins]) :: post ∧
      ((checkActivation 3 ev (countingRule [twoLogins]) (replay plainHost 3 (stateAfter plainHost {}
          (countingRules [twoLogins]) [.call 1 (login "eve")]) pre)).2.isActive = true ↔
        (countingRule [twoLogins]).activationGroup.rate.toNat ≤
          ((countingRule [twoLogins]).inWindow 3 (groupEvents plainHost {}
            (countingRules [twoLogins]) [.call 1 (login "eve")] ++ [(3, ev)])).length) := by
  have haccepted : parseFiles plainHost [countingFile [twoLogins]] =
      .ok (countingRules [twoLogins]) := plainRules_eq (by decide +kernel)
  have hrules := parseFiles_valid haccepted
  have hclean : (countingRules [twoLogins]).Clean plainHost := by decide +kernel
  obtain ⟨e, he⟩ := processLog_returns hrules hclean 3 (login "bob")
    (stateAfter plainHost {} (countingRules [twoLogins]) [.call 1 (login "eve")])
  obtain ⟨ev, pre, post, htrace⟩ := twoLogins_groupRule.exists_check hrules he
  have hclock : InOrder [.call 1 (login "eve"), .call 3 (login "bob")] := by decide +kernel
  have hexact := activationWindow_exact haccepted twoLogins_groupRule (by decide +kernel)
    (by decide +kernel) hclock (returns_of_clean hrules hclean _) htrace
  exact ⟨ev, pre, post, htrace, hexact.2.2.2.2.1⟩

end Exact

section SameField

theorem sameRate_toNat (same : List (ℤ × Event)) : (sameRate same).toNat = same.length % 2 ^ 16 := by
  induction same using List.reverseRecOn with
  | nil => rfl
  | append_singleton same e ih =>
    rw [sameRate] at ih
    rw [sameRate, List.foldl_append, List.length_append]
    simp only [List.foldl_cons, List.foldl_nil, UInt16.toNat_add, ih, UInt16.toNat_one,
      List.length_singleton]
    omega

/-- With a same field a rule is active exactly if the event has the field and enough stored
events have its value, but their number is only known modulo `2 ^ 16`. -/
theorem activeBy_sameField (hsame : rl.sameField ≠ "") (ev : Event) (saved : List (ℤ × Event)) :
    (activeBy ev rl saved).1 = true ↔ ∃ value, ev.fields[rl.sameField]? = some value ∧
      rl.activationGroup.rate.toNat ≤ (sameFieldEvents rl.sameField value saved).length % 2 ^ 16 := by
  rw [activeBy]
  cases hvalue : ev.fields[rl.sameField]? with
  | none =>
    split_ifs
    all_goals simp
  | some value =>
    have hlen : (sameFieldEvents rl.sameField value saved).length ≤ saved.length :=
      List.length_filter_le _ _
    have hmod := Nat.mod_le (sameFieldEvents rl.sameField value saved).length (2 ^ 16)
    by_cases hmany : rl.activationGroup.rate.toNat ≤ saved.length
    · rw [if_pos hmany]
      by_cases hrate : rl.activationGroup.rate ≤ sameRate (sameFieldEvents rl.sameField value saved)
      · have hnat := UInt16.le_iff_toNat_le.mp hrate
        rw [sameRate_toNat] at hnat
        simpa [hsame, hrate] using hnat
      · have hnat : ¬ rl.activationGroup.rate.toNat ≤
            (sameFieldEvents rl.sameField value saved).length % 2 ^ 16 := by
          rw [← sameRate_toNat, ← UInt16.le_iff_toNat_le]
          exact hrate
        simpa [hsame, hrate] using hnat
    · rw [if_neg hmany]
      have hnat : ¬ rl.activationGroup.rate.toNat ≤
          (sameFieldEvents rl.sameField value saved).length % 2 ^ 16 := by omega
      simpa using hnat

/-- Counting by a same field is exact as long as the number of stored events with the value does
not wrap to less than the rate. -/
theorem sameField_exact_iff {roots : List XMLNode} (h : parseFiles host roots = .ok rules)
    (hgroup : GroupRule rules rl) (hsame : rl.sameField ≠ "")
    (hreset : rl.activationGroup.reset = false) {steps : List Step} {se : SourceEvent}
    (hclock : InOrder (steps ++ [.call now se])) (hreturns : Returns host cfg rules steps)
    {ev : Event} {pre post : List (Act ρ)}
    (htrace : (processLog host now se rules (stateAfter host cfg rules steps)).trace =
      pre ++ .check ev rl :: post) :
    let st := replay host now (stateAfter host cfg rules steps) pre
    let events := rl.inWindow now (groupEvents host cfg rules steps ++ [(now, ev)])
    let same := fun value => (sameFieldEvents rl.sameField value events).length
    stored (checkActivation now ev rl st).1 rl.id = events ∧
      (((checkActivation now ev rl st).2.isActive = true ↔
          ∃ value, ev.fields[rl.sameField]? = some value ∧
            rl.activationGroup.rate.toNat ≤ same value) ↔
        ∀ value, ev.fields[rl.sameField]? = some value →
          rl.activationGroup.rate.toNat ≤ same value →
            rl.activationGroup.rate.toNat ≤ same value % 2 ^ 16) := by
  intro st events same
  have hrules := parseFiles_valid h
  have hrate := (hgroup.valid hrules).rate hgroup.activation
  have hstored := stored_after_check hgroup hrules hreset hclock hreturns htrace
  obtain ⟨hactive, -⟩ := @checkActivation_eq_activeBy _ now _ hgroup.activation hrate ev st
  refine ⟨hstored, ?_⟩
  rw [hactive, hstored, activeBy_sameField hsame]
  constructor
  · intro hiff value hvalue hmany
    obtain ⟨value', hvalue', hmod⟩ := hiff.mpr ⟨value, hvalue, hmany⟩
    rw [hvalue, Option.some.injEq] at hvalue'
    exact hvalue' ▸ hmod
  · intro hwrap
    constructor
    · rintro ⟨value, hvalue, hmod⟩
      exact ⟨value, hvalue, hmod.trans (Nat.mod_le _ _)⟩
    · rintro ⟨value, hvalue, hmany⟩
      exact ⟨value, hvalue, hwrap value hvalue hmany⟩

def sameUser : XMLNode := { name := "same_field", value := "user" }

theorem sameUser_groupRule : GroupRule (countingRules [twoLogins, sameUser])
    (countingRule [twoLogins, sameUser]) :=
  groupRule_of_settings (by decide +kernel) (by decide +kernel) (by decide +kernel)

theorem sameUser_accepted :
    parseFiles plainHost [countingFile [twoLogins, sameUser]] =
      .ok (countingRules [twoLogins, sameUser]) :=
  plainRules_eq (by decide +kernel)

theorem sameUser_clean : (countingRules [twoLogins, sameUser]).Clean plainHost := by
  decide +kernel

/-- The event of a login of one user, as it enters the group rules. -/
def bobEvent : Event :=
  ((enterGroups plainHost 7 (login "bob") (countingRules [twoLogins, sameUser]) ∅).map
    Prod.fst).getD {}

theorem enterGroups_bob (st : RulesState) :
    enterGroups plainHost 7 (login "bob") (countingRules [twoLogins, sameUser]) st =
      some (bobEvent, st) := by
  have hstateless : Stateless (countingRules [twoLogins, sameUser]).stdRules := by decide +kernel
  have henters : (enterGroups plainHost 7 (login "bob") (countingRules [twoLogins, sameUser])
      ∅).isSome = true := by decide +kernel
  obtain ⟨p, hp⟩ := Option.isSome_iff_exists.mp henters
  rw [enterGroups_stateless hstateless, bobEvent, hp]
  rfl

theorem groupEvents_flood (n : ℕ) :
    groupEvents plainHost {} (countingRules [twoLogins, sameUser])
      (List.replicate n (.call 7 (login "bob"))) = List.replicate n (7, bobEvent) := by
  induction n with
  | zero => rfl
  | succ n ih =>
    rw [List.replicate_succ', groupEvents_call, ih, enterGroups_bob, List.replicate_succ',
      Option.map_some, Option.toList_some]

theorem inOrder_flood (n : ℕ) : InOrder (List.replicate n (.call 7 (login "bob"))) := by
  rw [InOrder, List.map_replicate]
  exact List.pairwise_replicate.mpr (.inr (Int.le_refl _))

/-- The second login of one user: two events are stored, and as many of them have its name. -/
theorem sameField_exact_iff_sameUser :
    ∃ pre post,
      (processLog plainHost 7 (login "bob") (countingRules [twoLogins, sameUser])
        (stateAfter plainHost {} (countingRules [twoLogins, sameUser])
          [.call 7 (login "bob")])).trace =
            pre ++ .check bobEvent (countingRule [twoLogins, sameUser]) :: post ∧
      let st := replay plainHost 7 (stateAfter plainHost {} (countingRules [twoLogins, sameUser])
        [.call 7 (login "bob")]) pre
      let events := [(7, bobEvent), (7, bobEvent)]
      stored (checkActivation 7 bobEvent (countingRule [twoLogins, sameUser]) st).1
          (countingRule [twoLogins, sameUser]).id = events ∧
        ((checkActivation 7 bobEvent (countingRule [twoLogins, sameUser]) st).2.isActive = true ↔
          ∃ value, bobEvent.fields["user"]? = some value ∧
            2 ≤ (sameFieldEvents "user" value events).length) := by
  have hrules := parseFiles_valid sameUser_accepted
  obtain ⟨e, he⟩ := processLog_returns hrules sameUser_clean 7 (login "bob")
    (stateAfter plainHost {} (countingRules [twoLogins, sameUser]) [.call 7 (login "bob")])
  obtain ⟨ev, pre, post, htrace⟩ := sameUser_groupRule.exists_check hrules he
  obtain ⟨⟨gs, hentered⟩, -⟩ := sameUser_groupRule.check_cases hrules htrace
  rw [enterGroups_bob, Option.some.injEq, Prod.mk.injEq] at hentered
  obtain ⟨rfl, -⟩ := hentered
  have hexact := sameField_exact_iff sameUser_accepted sameUser_groupRule (by decide +kernel)
    (by decide +kernel) (inOrder_flood 2) (returns_of_clean hrules sameUser_clean _) htrace
  have hfield : (countingRule [twoLogins, sameUser]).sameField = "user" := by decide +kernel
  have hrate : (countingRule [twoLogins, sameUser]).activationGroup.rate.toNat = 2 := by
    decide +kernel
  have hwindow : (countingRule [twoLogins, sameUser]).inWindow 7
      ([(7, bobEvent)] ++ [(7, bobEvent)]) = [(7, bobEvent), (7, bobEvent)] := by decide +kernel
  have hgroup : groupEvents plainHost {} (countingRules [twoLogins, sameUser])
      [.call 7 (login "bob")] = [(7, bobEvent)] := groupEvents_flood 1
  simp only [hfield, hrate, hgroup, hwindow] at hexact
  refine ⟨pre, post, htrace, hexact.1, hexact.2.mpr ?_⟩
  intro value _ hmany
  have hfew : (sameFieldEvents "user" value [(7, bobEvent), (7, bobEvent)]).length ≤ 2 :=
    List.length_filter_le _ _
  omega

/-- The last of `2 ^ 16` logins of one user finds as many stored and is not active. -/
theorem flood_not_active :
    ∃ steps pre post, InOrder (steps ++ [.call 7 (login "bob")]) ∧
      Returns plainHost {} (countingRules [twoLogins, sameUser]) steps ∧
      (processLog plainHost 7 (login "bob") (countingRules [twoLogins, sameUser])
        (stateAfter plainHost {} (countingRules [twoLogins, sameUser]) steps)).trace =
          pre ++ .check bobEvent (countingRule [twoLogins, sameUser]) :: post ∧
      bobEvent.fields["user"]? = some "bob" ∧
      (sameFieldEvents "user" "bob" ((countingRule [twoLogins, sameUser]).inWindow 7
        (groupEvents plainHost {} (countingRules [twoLogins, sameUser]) steps ++
          [(7, bobEvent)]))).length = 2 ^ 16 ∧
      (checkActivation 7 bobEvent (countingRule [twoLogins, sameUser]) (replay plainHost 7
        (stateAfter plainHost {} (countingRules [twoLogins, sameUser]) steps) pre)).2.isActive =
          false := by
  have hrules := parseFiles_valid sameUser_accepted
  have hreturns : Returns plainHost {} (countingRules [twoLogins, sameUser])
      (List.replicate (2 ^ 16 - 1) (.call 7 (login "bob"))) :=
    returns_of_clean hrules sameUser_clean _
  have hconcat : List.replicate (2 ^ 16 - 1) (Step.call 7 (login "bob")) ++
      [.call 7 (login "bob")] = List.replicate (2 ^ 16) (.call 7 (login "bob")) := by
    rw [← List.replicate_succ', Nat.sub_add_cancel Nat.one_le_two_pow]
  have hclock := inOrder_flood (2 ^ 16)
  rw [← hconcat] at hclock
  obtain ⟨e, he⟩ := processLog_returns hrules sameUser_clean 7 (login "bob")
    (stateAfter plainHost {} (countingRules [twoLogins, sameUser])
      (List.replicate (2 ^ 16 - 1) (.call 7 (login "bob"))))
  obtain ⟨ev, pre, post, htrace⟩ := sameUser_groupRule.exists_check hrules he
  obtain ⟨⟨gs, hentered⟩, -⟩ := sameUser_groupRule.check_cases hrules htrace
  rw [enterGroups_bob, Option.some.injEq, Prod.mk.injEq] at hentered
  obtain ⟨rfl, -⟩ := hentered
  have huser : bobEvent.fields["user"]? = some "bob" := by decide +kernel
  have hevents : groupEvents plainHost {} (countingRules [twoLogins, sameUser])
      (List.replicate (2 ^ 16 - 1) (.call 7 (login "bob"))) ++ [(7, bobEvent)] =
        List.replicate (2 ^ 16) (7, bobEvent) := by
    rw [groupEvents_flood, ← List.replicate_succ', Nat.sub_add_cancel Nat.one_le_two_pow]
  have hwindow : (countingRule [twoLogins, sameUser]).inWindow 7
      (List.replicate (2 ^ 16) (7, bobEvent)) = List.replicate (2 ^ 16) (7, bobEvent) := by
    have hcounts : (countingRule [twoLogins, sameUser]).Counts bobEvent := by decide +kernel
    have hspan : 7 ≤ 7 + (countingRule [twoLogins, sameUser]).span := by decide +kernel
    rw [Rule.inWindow, window, List.filter_replicate_of_pos (by simpa using hcounts),
      List.filter_replicate_of_pos (by simpa using hspan)]
  have hsame : sameFieldEvents "user" "bob" (List.replicate (2 ^ 16) (7, bobEvent)) =
      List.replicate (2 ^ 16) (7, bobEvent) := by
    rw [sameFieldEvents, List.filter_replicate_of_pos (by simpa using huser)]
  refine ⟨_, pre, post, hclock, hreturns, htrace, huser, ?_, ?_⟩
  · rw [hevents, hwindow, hsame, List.length_replicate]
  · have hstored := stored_after_check sameUser_groupRule hrules (by decide +kernel) hclock
      hreturns htrace
    have hfield : (countingRule [twoLogins, sameUser]).sameField = "user" := by decide +kernel
    obtain ⟨hactive, -⟩ := checkActivation_eq_activeBy sameUser_groupRule.activation
      (by decide +kernel) bobEvent (replay plainHost 7 (stateAfter plainHost {}
        (countingRules [twoLogins, sameUser])
          (List.replicate (2 ^ 16 - 1) (.call 7 (login "bob")))) pre)
    rw [hactive, hstored, hevents, hwindow, Bool.eq_false_iff, ne_eq,
      activeBy_sameField (by rw [hfield]; decide)]
    rintro ⟨value, hvalue, hmod⟩
    rw [hfield, huser, Option.some.injEq] at hvalue
    subst hvalue
    rw [hfield, hsame, List.length_replicate, Nat.mod_self] at hmod
    have hrate : ¬ (countingRule [twoLogins, sameUser]).activationGroup.rate.toNat ≤ 0 := by
      decide +kernel
    exact hrate hmod

end SameField

end Ctguard
