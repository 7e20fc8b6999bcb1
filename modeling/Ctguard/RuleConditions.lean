import Ctguard.NormalReturn
import Ctguard.PlainHost
import Ctguard.RuleChain

/-!
# The conditions of a rule

What a rule object asks of an event, told without the order in which `check_rule` asks. A rule
that neither waits for another rule nor counts events matches exactly if it asks for something
and all that it asks for holds; the states of the rules have no part in it.
-/

namespace Ctguard

variable {ρ : Type}

/-- An entry of the event, or its absence, satisfies a condition on a field or a trait. A text
that is no expression finds nothing. -/
def EntryHolds (host : Host ρ) (entries : StringMap) (name : String) (kind : RuleMatch)
    (text : String) : Prop :=
  match entries[name]? with
  | none => kind = .empty
  | some value =>
    match kind with
    | .exact => value = text
    | .empty => value = ""
    | .regex => ∃ r, host.compile text = .ok r ∧ (host.search r value).isSome

/-- A rule asks for something besides an activation group. -/
def Rule.Asks (rl : Rule ρ) : Prop :=
  rl.triggerGroup ≠ "" ∨ (∃ name, name ∈ rl.triggerFields) ∨ (∃ name, name ∈ rl.triggerTraits) ∨
    rl.reg ≠ none ∨ rl.parentIds ≠ []

/-- All that a rule asks of the event itself holds. -/
structure Rule.Holds (host : Host ρ) (ev : Event) (rl : Rule ρ) : Prop where
  group : rl.triggerGroup ≠ "" → rl.triggerGroup = "!ALWAYS" ∨ rl.triggerGroup ∈ ev.groups
  fields : ∀ name kind text, rl.triggerFields[name]? = some (kind, text) →
    EntryHolds host ev.fields name kind text
  traits : ∀ name kind text, rl.triggerTraits[name]? = some (kind, text) →
    EntryHolds host ev.traits name kind text
  regex : ∀ r, rl.reg = some r → (host.search r (ev.fields["log"]?.getD ev.logstr)).isSome

section Conditions

variable {host : Host ρ} {now : ℤ} {ev : Event} {rl : Rule ρ}

theorem entryMatches_eq_true_iff {entries : StringMap} {name : String} {kind : RuleMatch}
    {text : String} : entryMatches host entries (name, kind, text) = .ok true ↔
      EntryHolds host entries name kind text := by
  rw [entryMatches, EntryHolds]
  cases hvalue : entries[name]? with
  | none => simp
  | some value =>
    cases kind with
    | exact => simp
    | empty => simp
    | regex => cases host.compile text <;> simp

theorem entriesHold_iff {entries : StringMap} {conds : TriggerMap} :
    entriesMatch host entries conds.toList = .ok true ↔
      ∀ name kind text, conds[name]? = some (kind, text) →
        EntryHolds host entries name kind text := by
  rw [entriesMatch_eq_true_iff]
  constructor
  · intro h name kind text hcond
    have hmem : (name, kind, text) ∈ conds.toList :=
      Std.ExtTreeMap.mem_toList_iff_getElem?_eq_some.mpr hcond
    exact entryMatches_eq_true_iff.mp (h _ hmem)
  · rintro h ⟨name, kind, text⟩ hmem
    have hcond := Std.ExtTreeMap.mem_toList_iff_getElem?_eq_some.mp hmem
    exact entryMatches_eq_true_iff.mpr (h name kind text hcond)

theorem groupMatches_iff : groupMatches ev rl = true ↔
    (rl.triggerGroup ≠ "" → rl.triggerGroup = "!ALWAYS" ∨ rl.triggerGroup ∈ ev.groups) := by
  rw [groupMatches, decide_eq_true_iff]
  tauto

theorem regexMatches_isSome_iff : (regexMatches host ev rl).isSome ↔
    ∀ r, rl.reg = some r → (host.search r (ev.fields["log"]?.getD ev.logstr)).isSome := by
  rw [regexMatches, Event.toMatch]
  cases hreg : rl.reg <;> simp

theorem Rule.hasCondition_iff : rl.hasCondition = true ↔ rl.Asks := by
  have hmem : ∀ conds : TriggerMap, ¬ conds.isEmpty = true ↔ ∃ name, name ∈ conds := by
    intro conds
    simp [Std.ExtTreeMap.eq_empty_iff_forall_not_mem]
  rw [Rule.hasCondition, Rule.Asks, decide_eq_true_iff, hmem, hmem, Option.isSome_iff_ne_none]

/-- The sub-matches of a rule all have a name, where its expression has no more groups. -/
theorem captureFields_of_names
    (hnames : ∀ r, rl.reg = some r → host.markCount r ≤ rl.regexFields.length)
    {ms : List String} (h : regexMatches host ev rl = some ms) :
    ∃ kvs, captureFields rl.regexFields 0 ms = .ok kvs := by
  apply captureFields_ok
  rw [Nat.zero_add]
  rw [regexMatches] at h
  cases hreg : rl.reg with
  | none =>
    rw [hreg, Option.some.injEq] at h
    simp [← h]
  | some r =>
    rw [hreg] at h
    rw [host.length_search h]
    exact hnames r hreg

theorem checkConditions_holds_iff
    (hnames : ∀ r, rl.reg = some r → host.markCount r ≤ rl.regexFields.length) :
    (∃ fields, checkConditions host ev rl = .ok (some fields)) ↔ rl.Holds host ev := by
  constructor
  · rintro ⟨fields, h⟩
    obtain ⟨hgroup, hfields, htraits, ms, hms, -⟩ := checkConditions_eq_some.mp h
    exact ⟨groupMatches_iff.mp hgroup, entriesHold_iff.mp hfields, entriesHold_iff.mp htraits,
      regexMatches_isSome_iff.mp (by rw [hms]; rfl)⟩
  · intro h
    obtain ⟨ms, hms⟩ := Option.isSome_iff_exists.mp (regexMatches_isSome_iff.mpr h.regex)
    obtain ⟨kvs, hkvs⟩ := captureFields_of_names hnames hms
    exact ⟨kvs, checkConditions_eq_some.mpr ⟨groupMatches_iff.mpr h.group,
      entriesHold_iff.mpr h.fields, entriesHold_iff.mpr h.traits, ms, hms, hkvs⟩⟩

/-- The check of a rule that neither waits nor counts, told from its conditions alone. -/
theorem checkRule_plain (hunless : ¬ rl.HasUnless) (hactivation : ¬ rl.HasActivation)
    (st : RulesState) : checkRule host now ev rl st = (st,
      (checkConditions host ev rl).map fun
        | none => {}
        | some fields => { matched := rl.hasCondition, fields := fields }) := by
  rw [checkRule, if_neg hunless, checkActivation, if_neg hactivation]
  rcases checkConditions host ev rl with f | _ | fields <;> simp [Except.map]

/-- A rule that neither waits for another rule nor counts events matches exactly if it asks for
something and all of it holds; then it extracts what its expression captures. In any case the
states of the rules stay as they are. -/
theorem checkRule_matches_iff (hunless : ¬ rl.HasUnless) (hactivation : ¬ rl.HasActivation)
    (hnames : ∀ r, rl.reg = some r → host.markCount r ≤ rl.regexFields.length)
    (st : RulesState) :
    (checkRule host now ev rl st).1 = st ∧
      ((∃ c, (checkRule host now ev rl st).2 = .ok c ∧ c.matched = true) ↔
        rl.Asks ∧ rl.Holds host ev) ∧
      ∀ c, (checkRule host now ev rl st).2 = .ok c → c.matched = true →
        c.fields = ruleWrites host ev rl ∧ c.traits = [] := by
  rw [checkRule_plain hunless hactivation, ← Rule.hasCondition_iff,
    ← checkConditions_holds_iff hnames]
  refine ⟨rfl, ⟨?_, ?_⟩, ?_⟩
  · rintro ⟨c, hc, hm⟩
    rcases hcond : checkConditions host ev rl with f | _ | fields
    · simp [hcond, Except.map] at hc
    · simp only [hcond, Except.map, Except.ok.injEq] at hc
      simp [← hc] at hm
    · simp only [hcond, Except.map, Except.ok.injEq] at hc
      subst hc
      exact ⟨hm, fields, rfl⟩
  · rintro ⟨hasks, fields, hcond⟩
    exact ⟨{ matched := rl.hasCondition, fields := fields }, by simp [hcond, Except.map], hasks⟩
  · intro c hc hm
    have hcheck : checkRule host now ev rl st = (st, .ok c) := by
      rw [checkRule_plain hunless hactivation]
      exact Prod.ext rfl hc
    refine ⟨checkRule_fields hcheck hm, ?_⟩
    rw [(checkRule_matched hcheck hm).2.2.2.1, checkActivation, if_neg hactivation]

end Conditions

section EmptyField

/-- A rule below two others that asks for an absent or empty field, and extracts one. -/
def emptyField : Rule PlainRegex where
  id := 14
  parentIds := [12, 13]
  priority := 8
  reg := some ⟨"ytest".toList, true⟩
  regexFields := ["rest"]
  triggerFields := Std.ExtTreeMap.ofList [("testy", RuleMatch.empty, "")]

theorem checkRule_matches_iff_emptyField :
    ¬ emptyField.HasUnless ∧ ¬ emptyField.HasActivation ∧
      (∀ r, emptyField.reg = some r → plainHost.markCount r ≤ emptyField.regexFields.length) ∧
      (checkRule plainHost 0 { logstr := "a ytesty" } emptyField ∅).1 = ∅ ∧
      ((∃ c, (checkRule plainHost 0 { logstr := "a ytesty" } emptyField ∅).2 = .ok c ∧
          c.matched = true) ↔
        emptyField.Asks ∧ emptyField.Holds plainHost { logstr := "a ytesty" }) ∧
      ∀ c, (checkRule plainHost 0 { logstr := "a ytesty" } emptyField ∅).2 = .ok c →
        c.matched = true → c.fields = [("rest", "y")] ∧ c.traits = [] := by
  have hunless : ¬ emptyField.HasUnless := by decide
  have hactivation : ¬ emptyField.HasActivation := by decide
  have hnames : ∀ r, emptyField.reg = some r →
      plainHost.markCount r ≤ emptyField.regexFields.length := by
    intro r hr
    cases hr
    decide
  have hwrites : ruleWrites plainHost { logstr := "a ytesty" } emptyField = [("rest", "y")] := by
    decide
  obtain ⟨hstate, hiff, hfields⟩ :=
    @checkRule_matches_iff _ plainHost 0 { logstr := "a ytesty" } _ hunless hactivation hnames ∅
  rw [hwrites] at hfields
  exact ⟨hunless, hactivation, hnames, hstate, hiff, hfields⟩

end EmptyField

end Ctguard
