import Ctguard.EventNames

/-!
# Calls that return

With accepted rules a call of `process_log` never leaves the bounds of a list of field
names. It still does not return in three cases, and in no other: it reaches a rule with
both an unless rule and an activation group under a rule that is neither a parent nor
the unless rule, it evaluates a pattern of a field or trait that does not compile, or
on one level nothing but rules of priority zero and the largest id match. A configuration
whose rules exclude the three cases is one under which every call returns.
-/

namespace Ctguard

variable {ρ : Type} {host : Host ρ} {now : ℤ}

section Check

/-- A rule with an activation group that waits for another rule is a group rule, checked
under any rule that is chosen last. -/
def StrayUnless (ev : Event) (rl : Rule ρ) : Prop :=
  rl.HasUnless ∧ rl.HasActivation ∧ ev.ruleId ∉ rl.parentIds ∧ ev.ruleId ≠ rl.unlessRule.id

/-- Some condition is reached whose name is present and whose pattern does not compile. -/
def ReachesBadPattern (host : Host ρ) (entries : StringMap)
    (conds : List (String × RuleMatch × String)) : Prop :=
  ∃ pre cond post, conds = pre ++ cond :: post ∧
    (∀ c ∈ pre, entryMatches host entries c = .ok true) ∧ cond.1 ∈ entries ∧
    cond.2.1 = .regex ∧ ∃ what, host.compile cond.2.2 = .error what

def BadPattern (host : Host ρ) (ev : Event) (rl : Rule ρ) : Prop :=
  ¬ rl.HasUnless ∧ groupMatches ev rl = true ∧
    (ReachesBadPattern host ev.fields rl.triggerFields.toList ∨
      entriesMatch host ev.fields rl.triggerFields.toList = .ok true ∧
        ReachesBadPattern host ev.traits rl.triggerTraits.toList)

theorem entryMatches_eq_error {entries : StringMap} {cond : String × RuleMatch × String}
    {f : Fault} (h : entryMatches host entries cond = .error f) :
    cond.1 ∈ entries ∧ cond.2.1 = .regex ∧ ∃ what, host.compile cond.2.2 = .error what ∧
      f = .regexError what := by
  rw [entryMatches] at h
  cases hvalue : entries[cond.1]? with
  | none => simp [hvalue] at h
  | some value =>
    have hmem : cond.1 ∈ entries := by
      rw [Std.ExtTreeMap.mem_iff_isSome_getElem?, hvalue]
      rfl
    cases hkind : cond.2.1 with
    | exact => simp [hvalue, hkind] at h
    | empty => simp [hvalue, hkind] at h
    | regex =>
      cases hcompile : host.compile cond.2.2 with
      | ok r => simp [hvalue, hkind, hcompile] at h
      | error what =>
        simp only [hvalue, hkind, hcompile, Except.error.injEq] at h
        exact ⟨hmem, rfl, what, rfl, h.symm⟩

theorem entryMatches_error {entries : StringMap} {cond : String × RuleMatch × String}
    (hmem : cond.1 ∈ entries) (hkind : cond.2.1 = .regex) {what : String}
    (hcompile : host.compile cond.2.2 = .error what) :
    entryMatches host entries cond = .error (.regexError what) := by
  rw [Std.ExtTreeMap.mem_iff_isSome_getElem?] at hmem
  obtain ⟨value, hvalue⟩ := Option.isSome_iff_exists.mp hmem
  simp [entryMatches, hvalue, hkind, hcompile]

/-- The conditions fault exactly at a bad pattern that is reached. -/
theorem entriesMatch_error_iff {entries : StringMap} {conds : List (String × RuleMatch × String)} :
    (∃ f, entriesMatch host entries conds = .error f) ↔ ReachesBadPattern host entries conds := by
  induction conds with
  | nil =>
    constructor
    · rintro ⟨f, h⟩
      cases h
    · rintro ⟨pre, cond, post, h, -⟩
      simp at h
  | cons cond conds ih =>
    rw [entriesMatch]
    constructor
    · rintro ⟨f, h⟩
      rcases hcond : entryMatches host entries cond with g | _ | _
      · obtain ⟨hmem, hkind, what, hcompile, -⟩ := entryMatches_eq_error hcond
        exact ⟨[], cond, conds, rfl, by simp, hmem, hkind, what, hcompile⟩
      · simp [hcond] at h
      · simp only [hcond] at h
        obtain ⟨pre, bad, post, rfl, hpre, hbad⟩ := ih.mp ⟨f, h⟩
        exact ⟨cond :: pre, bad, post, rfl, List.forall_mem_cons.mpr ⟨hcond, hpre⟩, hbad⟩
    · rintro ⟨pre, bad, post, heq, hpre, hmem, hkind, what, hcompile⟩
      cases pre with
      | nil =>
        rw [List.nil_append, List.cons.injEq] at heq
        obtain ⟨rfl, rfl⟩ := heq
        exact ⟨_, by rw [entryMatches_error hmem hkind hcompile]⟩
      | cons c pre =>
        rw [List.cons_append, List.cons.injEq] at heq
        obtain ⟨rfl, rfl⟩ := heq
        obtain ⟨hcond, hpre⟩ := List.forall_mem_cons.mp hpre
        simp only [hcond]
        exact ih.mpr ⟨pre, bad, post, rfl, hpre, hmem, hkind, what, hcompile⟩

theorem captureFields_ok (names : List String) (i : ℕ) (ms : List String)
    (h : i + ms.length ≤ names.length) : ∃ kvs, captureFields names i ms = .ok kvs := by
  induction ms generalizing i with
  | nil => exact ⟨[], rfl⟩
  | cons m ms ih =>
    rw [List.length_cons] at h
    obtain ⟨kvs, hkvs⟩ := ih (i + 1) (by omega)
    rw [captureFields]
    by_cases hm : m = ""
    · exact ⟨kvs, by rw [if_pos hm, hkvs]⟩
    · have hi : i < names.length := by omega
      simp [hm, List.getElem?_eq_getElem hi, hkvs, Except.map]

theorem formatFields_ok (names : List String) (i : ℕ) (ms : List String)
    (h : i + ms.length ≤ names.length) : ∃ kvs, formatFields names i ms = .ok kvs := by
  induction ms generalizing i with
  | nil => exact ⟨[], rfl⟩
  | cons m ms ih =>
    rw [List.length_cons] at h
    obtain ⟨kvs, hkvs⟩ := ih (i + 1) (by omega)
    have hi : i < names.length := by omega
    simp [formatFields, List.getElem?_eq_getElem hi, hkvs, Except.map]

/-- The sub-matches of a valid rule fit the names of its fields. -/
theorem regexMatches_length {ev : Event} {rl : Rule ρ} (hrl : rl.Valid host) {ms : List String}
    (h : regexMatches host ev rl = some ms) : ms.length ≤ rl.regexFields.length := by
  rw [regexMatches] at h
  cases hreg : rl.reg with
  | none =>
    simp only [hreg, Option.some.injEq] at h
    simp [← h]
  | some r =>
    simp only [hreg] at h
    rw [host.length_search h, hrl.markCount r hreg]

theorem checkConditions_error_iff {ev : Event} {rl : Rule ρ} (hrl : rl.Valid host) :
    (∃ f, checkConditions host ev rl = .error f) ↔ groupMatches ev rl = true ∧
      (ReachesBadPattern host ev.fields rl.triggerFields.toList ∨
        entriesMatch host ev.fields rl.triggerFields.toList = .ok true ∧
          ReachesBadPattern host ev.traits rl.triggerTraits.toList) := by
  rw [← entriesMatch_error_iff, ← entriesMatch_error_iff, checkConditions]
  cases hgroup : groupMatches ev rl with
  | false => simp
  | true =>
    rcases hfields : entriesMatch host ev.fields rl.triggerFields.toList with f | _ | _
    · simp
    · simp
    · rcases htraits : entriesMatch host ev.traits rl.triggerTraits.toList with f | _ | _
      · simp
      · simp
      · cases hregex : regexMatches host ev rl with
        | none => simp
        | some ms =>
          obtain ⟨kvs, hkvs⟩ := captureFields_ok rl.regexFields 0 ms
            (by simpa using regexMatches_length hrl hregex)
          simp [hkvs, Except.map]

/-- When a check of a valid rule does not return; the states have no part in it. -/
theorem checkRule_error_iff {ev : Event} {rl : Rule ρ} (hrl : rl.Valid host) (st : RulesState) :
    (∃ f, (checkRule host now ev rl st).2 = .error f) ↔
      (rl.HasUnless ∧ ev.ruleId ∉ rl.parentIds ∧ ev.ruleId ≠ rl.unlessRule.id) ∨
        BadPattern host ev rl := by
  rw [BadPattern, checkRule]
  by_cases hunless : rl.HasUnless
  · rw [if_pos hunless, checkUnless]
    split_ifs <;> simp [*]
  · rw [if_neg hunless, ← checkConditions_error_iff hrl]
    rcases hcond : checkConditions host ev rl with f | _ | fields <;> simp [hunless]

theorem entriesMatch_eq_error {entries : StringMap} {conds : List (String × RuleMatch × String)}
    {f : Fault} (h : entriesMatch host entries conds = .error f) :
    ∃ what, f = .regexError what := by
  induction conds with
  | nil => cases h
  | cons cond conds ih =>
    rw [entriesMatch] at h
    rcases hcond : entryMatches host entries cond with g | _ | _
    · simp only [hcond, Except.error.injEq] at h
      obtain ⟨-, -, what, -, hg⟩ := entryMatches_eq_error hcond
      exact ⟨what, h ▸ hg⟩
    · simp [hcond] at h
    · simp only [hcond] at h
      exact ih h

/-- The check of a valid rule never uses an index out of range. -/
theorem checkRule_ne_outOfRange {ev : Event} {rl : Rule ρ} (hrl : rl.Valid host)
    (st : RulesState) (i : ℕ) : (checkRule host now ev rl st).2 ≠ .error (.outOfRange i) := by
  intro h
  rw [checkRule] at h
  by_cases hunless : rl.HasUnless
  · rw [if_pos hunless, checkUnless] at h
    split_ifs at h
    all_goals cases h
  · rw [if_neg hunless] at h
    rcases hcond : checkConditions host ev rl with f | _ | fields
    · simp only [hcond, Except.error.injEq] at h
      subst h
      rw [checkConditions] at hcond
      split_ifs at hcond
      rcases hfields : entriesMatch host ev.fields rl.triggerFields.toList with f | _ | _
      · obtain ⟨what, rfl⟩ := entriesMatch_eq_error hfields
        simp [hfields] at hcond
      · simp [hfields] at hcond
      · rcases htraits : entriesMatch host ev.traits rl.triggerTraits.toList with f | _ | _
        · obtain ⟨what, rfl⟩ := entriesMatch_eq_error htraits
          simp [hfields, htraits] at hcond
        · simp [hfields, htraits] at hcond
        · cases hregex : regexMatches host ev rl with
          | none => simp [hfields, htraits, hregex] at hcond
          | some ms =>
            obtain ⟨kvs, hkvs⟩ := captureFields_ok rl.regexFields 0 ms
              (by simpa using regexMatches_length hrl hregex)
            simp [hfields, htraits, hregex, hkvs, Except.map] at hcond
    · simp [hcond] at h
    · simp [hcond] at h

end Check

section Walk

/-- Some rules match on the level that is checked last, and all of them are of priority zero
and have the largest id. -/
def Unranked (host : Host ρ) (now : ℤ) (st : RulesState) (trace : List (Act ρ)) : Prop :=
  ∃ above level, trace = above ++ level ∧ (∀ a ∈ level, a.isCheck = true) ∧
    (∃ pre ev rl post c, level = pre ++ .check ev rl :: post ∧
      (checkRule host now ev rl (replay host now st (above ++ pre))).2 = .ok c ∧
        c.matched = true) ∧
    ∀ pre ev rl post c, level = pre ++ .check ev rl :: post →
      (checkRule host now ev rl (replay host now st (above ++ pre))).2 = .ok c →
        c.matched = true → rl.priority = 0 ∧ rl.id = -1

/-- The checks of a level that returns have returned, and found its candidates. -/
theorem checkSiblings_check_of_ok {ev e : Event} {rules : RuleForest ρ} {st : RulesState}
    {ms : List (Candidate ρ)} (h : (checkSiblings host now ev rules st).result = .ok ms)
    {pre post : List (Act ρ)} {rl : Rule ρ}
    (htrace : (checkSiblings host now ev rules st).trace = pre ++ .check e rl :: post) :
    ∃ c, (checkRule host now e rl (replay host now st pre)).2 = .ok c ∧
      (c.matched = true → ∃ r, r.root = rl ∧ (r, c) ∈ ms) := by
  induction rules generalizing st ms pre with
  | nil => simp [checkSiblings] at htrace
  | cons r rs ih =>
    rw [checkSiblings] at h htrace
    rcases hr : checkRule host now ev r.root st with ⟨st', f | checked⟩
    · simp [hr] at h
    · simp only [hr] at h htrace
      cases hres : (checkSiblings host now ev rs st').result with
      | error f => simp [hres, Except.map] at h
      | ok more =>
        simp only [hres, Except.map, Except.ok.injEq] at h
        cases pre with
        | nil =>
          rw [List.nil_append, List.cons.injEq] at htrace
          obtain ⟨hact, -⟩ := htrace
          cases hact
          exact ⟨checked, by simp [hr], fun hm => ⟨r, rfl, by simp [← h, hm]⟩⟩
        | cons a pre =>
          rw [List.cons_append, List.cons.injEq] at htrace
          obtain ⟨rfl, htrace⟩ := htrace
          obtain ⟨c, hcheck, hmem⟩ := ih hres htrace
          refine ⟨c, by simpa [Act.apply, hr] using hcheck, ?_⟩
          intro hm
          obtain ⟨r', hr', hr'mem⟩ := hmem hm
          refine ⟨r', hr', ?_⟩
          rw [← h]
          split_ifs
          · exact List.mem_cons_of_mem _ hr'mem
          · exact hr'mem

/-- A walk that does not return faults in its last check, or cannot choose a rule. -/
theorem checkTopRules_error (ev : Event) (rules : RuleForest ρ) (st : RulesState) {f : Fault}
    (h : (checkTopRules host now ev rules st).result = .error f) :
    (∃ pre e rl, (checkTopRules host now ev rules st).trace = pre ++ [.check e rl] ∧
      (checkRule host now e rl (replay host now st pre)).2 = .error f) ∨
    f = noFit ∧ Unranked host now st (checkTopRules host now ev rules st).trace := by
  refine checkTopRules_induction (P := fun ev rules st o => o.result = .error f →
    (∃ pre e rl, o.trace = pre ++ [.check e rl] ∧
      (checkRule host now e rl (replay host now st pre)).2 = .error f) ∨
    f = noFit ∧ Unranked host now st o.trace) ?_ ?_ ?_ ?_ ev rules st h
  · intro ev rules st g hres h
    cases h
    obtain ⟨pre, rl, htrace, hcheck⟩ := checkSiblings_error hres
    exact .inl ⟨pre, ev, rl, htrace, hcheck⟩
  · intro ev rules st _ h
    cases h
  · intro ev rules st ms hres hne hpick h
    cases h
    obtain ⟨c, hc⟩ : ∃ c, ms.argmax Candidate.rank = some c :=
      Option.ne_none_iff_exists'.mp fun hnone => hne (List.argmax_eq_none.mp hnone)
    have hlow : ∀ d ∈ ms, d.1.root.rank = lowestRank := by
      intro d hd
      have hcd : d.rank ≤ c.rank := List.le_of_mem_argmax hd hc
      have hnlt : ¬ lowestRank < c.rank := by
        intro hlt
        simp [pickFit_eq, hc, Option.filter, hlt] at hpick
      exact le_antisymm (hcd.trans (not_lt.mp hnlt)) (lowestRank_le _)
    obtain ⟨pre, post, htrace, hcheck, hm⟩ := checkSiblings_candidate hres (List.argmax_mem hc)
    refine .inr ⟨rfl, [], _, rfl, checkSiblings_isCheck,
      ⟨pre, ev, _, post, _, htrace, hcheck, hm⟩, ?_⟩
    intro pre e rl post c htrace hcheck hm
    obtain ⟨c', hcheck', hfound⟩ := checkSiblings_check_of_ok hres htrace
    rw [List.nil_append, hcheck', Except.ok.injEq] at hcheck
    obtain ⟨r, rfl, hmem⟩ := hfound (hcheck ▸ hm)
    exact (rank_eq_lowestRank_iff r.root).mp (hlow _ hmem)
  · intro ev rules st ms fit checked hres hpick ev' st' below ih h
    have hstate : st' = replay host now st
        ((checkSiblings host now ev rules st).trace ++ [.fit ev fit.root checked]) := by
      rw [replay_append, ← checkSiblings_replay]
      rfl
    rcases ih h with ⟨pre, e, rl, htrace, hcheck⟩ | ⟨hf, above, level, htrace, hlevel⟩
    · refine .inl ⟨(checkSiblings host now ev rules st).trace ++
        .fit ev fit.root checked :: pre, e, rl, by simp [htrace], ?_⟩
      rw [hstate, ← replay_append] at hcheck
      simpa using hcheck
    · refine .inr ⟨hf, (checkSiblings host now ev rules st).trace ++
        .fit ev fit.root checked :: above, level, by simp [htrace], ?_⟩
      rw [hstate] at hlevel
      simpa using hlevel

/-- Every check of a walk that returns has returned, and after a rule that matches the walk
chooses one. -/
theorem checkTopRules_check_of_ok (ev : Event) (rules : RuleForest ρ) (st : RulesState)
    {last : Event} (h : (checkTopRules host now ev rules st).result = .ok last)
    {pre post : List (Act ρ)} {e : Event} {rl : Rule ρ}
    (htrace : (checkTopRules host now ev rules st).trace = pre ++ .check e rl :: post) :
    ∃ c, (checkRule host now e rl (replay host now st pre)).2 = .ok c ∧
      (c.matched = true → ∃ a ∈ post, a.isCheck = false) := by
  refine checkTopRules_induction (P := fun ev rules st o => o.result = .ok last →
    ∀ pre post, o.trace = pre ++ .check e rl :: post →
      ∃ c, (checkRule host now e rl (replay host now st pre)).2 = .ok c ∧
        (c.matched = true → ∃ a ∈ post, a.isCheck = false))
    ?_ ?_ ?_ ?_ ev rules st h pre post htrace
  · intro ev rules st f _ h
    cases h
  · intro ev rules st hres _ pre post htrace
    obtain ⟨c, hcheck, hmem⟩ := checkSiblings_check_of_ok hres htrace
    refine ⟨c, hcheck, ?_⟩
    intro hm
    obtain ⟨r, -, hr⟩ := hmem hm
    simp at hr
  · intro ev rules st ms _ _ _ h
    cases h
  · intro ev rules st ms fit checked hres hpick ev' st' below ih h pre post htrace
    rcases append_cons_eq_append_cons htrace with ⟨post', hpost⟩ | ⟨-, heq, -⟩ | ⟨pre', rfl, hpre⟩
    · obtain ⟨c, hcheck, -⟩ := checkSiblings_check_of_ok hres hpost
      refine ⟨c, hcheck, fun _ => ⟨.fit ev fit.root checked, ?_, rfl⟩⟩
      have hsuffix : post' ++ .fit ev fit.root checked :: below.trace = post := by
        simpa [hpost] using htrace
      rw [← hsuffix]
      exact List.mem_append_right _ List.mem_cons_self
    · cases heq
    · obtain ⟨c, hcheck, hfit⟩ := ih h pre' post hpre
      refine ⟨c, ?_, hfit⟩
      rw [replay_append, ← checkSiblings_replay, replay_cons]
      exact hcheck

end Walk

section Call

variable {se : SourceEvent} {rules : RuleCfg ρ}

theorem formatLog_ok (ev : Event) {formats : List (Format ρ)}
    (h : ∀ f ∈ formats, host.markCount f.reg = f.fields.length) :
    ∃ ev', formatLog host ev formats = .ok ev' := by
  induction formats with
  | nil => exact ⟨_, rfl⟩
  | cons f fs ih =>
    obtain ⟨hf, hfs⟩ := List.forall_mem_cons.mp h
    rw [formatLog]
    cases hmatch : host.fullMatch f.reg ev.logstr with
    | none => exact ih hfs
    | some ms =>
      have hlen := host.length_fullMatch hmatch
      obtain ⟨kvs, hkvs⟩ := formatFields_ok f.fields 0 ms (by omega)
      simp [hkvs, Except.map]

/-- Only group rules are checked under other rules than their parents and unless rule. -/
theorem Placed.hasActivation {st : RulesState} {ev : Event} {rl : Rule ρ}
    (h : Placed host now se rules st ev rl) (hrules : rules.Valid host) (hunless : rl.HasUnless)
    (hparent : ev.ruleId ∉ rl.parentIds) (hid : ev.ruleId ≠ rl.unlessRule.id) :
    rl.HasActivation := by
  obtain ⟨v, hv, rfl⟩ := h.mem_views
  have hrl := hrules.rule v hv
  rcases h.cases hrules with ⟨hnil, -⟩ | ⟨hgrouped, -⟩ | ⟨hmem, -⟩ | ⟨-, heq⟩
  · exact absurd hnil (hrl.parents hunless)
  · exact hgrouped.resolve_left fun htrigger => htrigger (hrl.noGroup (hrl.parents hunless))
  · exact absurd hmem hparent
  · exact absurd heq.symm hid

theorem Unranked.prepend {st : RulesState} {acts trace : List (Act ρ)}
    (h : Unranked host now (replay host now st acts) trace) :
    Unranked host now st (acts ++ trace) := by
  obtain ⟨above, level, rfl, hlevel⟩ := h
  refine ⟨acts ++ above, level, by simp, ?_⟩
  simpa using hlevel

theorem processLog_error {st : RulesState} {f : Fault} (hrules : rules.Valid host)
    (h : (processLog host now se rules st).result = .error f) :
    (∃ pre e rl, (processLog host now se rules st).trace = pre ++ [.check e rl] ∧
      (checkRule host now e rl (replay host now st pre)).2 = .error f) ∨
    f = noFit ∧ Unranked host now st (processLog host now se rules st).trace := by
  cases henter : enterGroups host now se rules st with
  | none =>
    obtain ⟨start, hformat⟩ := formatLog_ok (.ofSource host se) hrules.formats
    rw [processLog, hformat] at h ⊢
    rw [enterGroups, hformat] at henter
    cases hstd : (checkTopRules host now start rules.stdRules st).result with
    | ok ev => simp [hstd] at henter
    | error g =>
      simp only [Outcome.andThen, hstd, Except.error.injEq] at h ⊢
      subst h
      exact checkTopRules_error start rules.stdRules st hstd
  | some p =>
    obtain ⟨ge, gs⟩ := p
    rw [processLog_of_enterGroups henter] at h ⊢
    rw [stdTrace_replay henter] at h ⊢
    rcases checkTopRules_error ge rules.groupRules _ h with ⟨pre, e, rl, htrace, hcheck⟩ | ⟨hf, hun⟩
    · refine .inl ⟨stdTrace host now se rules st ++ pre, e, rl, by simp [htrace], ?_⟩
      rwa [replay_append]
    · exact .inr ⟨hf, hun.prepend⟩

theorem processLog_check_of_ok {st : RulesState} {last : Event}
    (h : (processLog host now se rules st).result = .ok last) {pre post : List (Act ρ)} {e : Event}
    {rl : Rule ρ} (htrace : (processLog host now se rules st).trace = pre ++ .check e rl :: post) :
    ∃ c, (checkRule host now e rl (replay host now st pre)).2 = .ok c ∧
      (c.matched = true → ∃ a ∈ post, a.isCheck = false) := by
  obtain ⟨ge, gs, henter⟩ := enterGroups_of_ok h
  rw [processLog_of_enterGroups henter] at h htrace
  rcases append_eq_append_cons htrace with ⟨post', hstd⟩ | ⟨pre', rfl, hgroup⟩
  · obtain ⟨start, -, hres, -, hstdTrace⟩ := enterGroups_eq_some henter
    rw [hstdTrace] at hstd htrace
    obtain ⟨c, hcheck, hfit⟩ := checkTopRules_check_of_ok start rules.stdRules st hres hstd
    refine ⟨c, hcheck, ?_⟩
    intro hm
    obtain ⟨a, ha, hnot⟩ := hfit hm
    rw [hstd, List.append_assoc, List.cons_append] at htrace
    have hpost := (List.cons.inj (List.append_cancel_left htrace)).2
    exact ⟨a, hpost ▸ List.mem_append_left _ ha, hnot⟩
  · obtain ⟨c, hcheck, hfit⟩ := checkTopRules_check_of_ok ge rules.groupRules gs h hgroup
    refine ⟨c, ?_, hfit⟩
    rwa [replay_append, ← stdTrace_replay henter]

theorem placed_of_check {st : RulesState} (hrules : rules.Valid host) {pre post : List (Act ρ)}
    {ev : Event} {rl : Rule ρ}
    (htrace : (processLog host now se rules st).trace = pre ++ .check ev rl :: post) :
    Placed host now se rules st ev rl ∧ rl.Valid host := by
  obtain ⟨-, -, -, hplaced⟩ := processLog_act htrace
  obtain ⟨v, hv, heq⟩ := hplaced.mem_views
  have hvalid := hrules.rule v hv
  rw [heq] at hvalid
  exact ⟨hplaced, hvalid⟩

/-- A call under valid rules uses no index out of range. -/
theorem processLog_ne_outOfRange {st : RulesState} (hrules : rules.Valid host) (i : ℕ) :
    (processLog host now se rules st).result ≠ .error (.outOfRange i) := by
  intro hi
  rcases processLog_error hrules hi with ⟨pre, e, rl, htrace, hcheck⟩ | ⟨hf, -⟩
  · exact checkRule_ne_outOfRange (placed_of_check hrules htrace).2 _ i hcheck
  · cases hf

/-- A call under valid rules returns exactly if it evaluates no bad pattern, reaches no stray
rule and ends on no level without a choice. -/
theorem processLog_returns_iff (hrules : rules.Valid host) (now : ℤ) (se : SourceEvent)
    (st : RulesState) :
    (∃ e, (processLog host now se rules st).result = .ok e) ↔
      (∀ ev rl, .check ev rl ∈ (processLog host now se rules st).trace →
        ¬ StrayUnless ev rl ∧ ¬ BadPattern host ev rl) ∧
      ¬ Unranked host now st (processLog host now se rules st).trace := by
  constructor
  · rintro ⟨e, he⟩
    constructor
    · intro ev rl hmem
      obtain ⟨pre, post, htrace⟩ := List.append_of_mem hmem
      obtain ⟨c, hcheck, -⟩ := processLog_check_of_ok he htrace
      have hnone : ¬ ∃ f, (checkRule host now ev rl (replay host now st pre)).2 = .error f := by
        rintro ⟨f, hf⟩
        rw [hcheck] at hf
        cases hf
      rw [checkRule_error_iff (placed_of_check hrules htrace).2, not_or] at hnone
      exact ⟨fun hstray => hnone.1 ⟨hstray.1, hstray.2.2⟩, hnone.2⟩
    · rintro ⟨above, level, htrace, hlevel, ⟨pre, ev, rl, post, c, rfl, hcheck, hm⟩, -⟩
      rw [← List.append_assoc] at htrace
      obtain ⟨c', hcheck', hfit⟩ := processLog_check_of_ok he htrace
      rw [hcheck, Except.ok.injEq] at hcheck'
      obtain ⟨a, ha, hnot⟩ := hfit (hcheck' ▸ hm)
      have hcheckAct := hlevel a (List.mem_append_right _ (List.mem_cons_of_mem _ ha))
      rw [hcheckAct] at hnot
      cases hnot
  · rintro ⟨hchecks, hranked⟩
    cases hres : (processLog host now se rules st).result with
    | ok e => exact ⟨e, rfl⟩
    | error f =>
      rcases processLog_error hrules hres with ⟨pre, ev, rl, htrace, hcheck⟩ | ⟨-, hun⟩
      · obtain ⟨hpl, hrl⟩ := placed_of_check hrules htrace
        have hmem : .check ev rl ∈ (processLog host now se rules st).trace := by
          rw [htrace]
          exact List.mem_append_right _ List.mem_cons_self
        obtain ⟨hstray, hbad⟩ := hchecks ev rl hmem
        rcases (checkRule_error_iff hrl _).mp ⟨f, hcheck⟩ with ⟨hunless, hparent, hid⟩ | hpattern
        · have hact := hpl.hasActivation hrules hunless hparent hid
          exact absurd ⟨hunless, hact, hparent, hid⟩ hstray
        · exact absurd hpattern hbad
      · exact absurd hun hranked

/-- The ids that an event can have when it enters the group rules. -/
def RuleCfg.entryIds (rules : RuleCfg ρ) : List RuleId :=
  0 :: (RoseTree.views rules.stdRules).map fun v => v.1.id

/-- What the rule must be so that it ends no call. A rule that waits for another one is never
chosen, and its conditions are not evaluated; if it counts as well, it is checked under every
event that enters the group rules. -/
def Rule.Clean (host : Host ρ) (rules : RuleCfg ρ) (rl : Rule ρ) : Prop :=
  if rl.HasUnless then
    rl.HasActivation → ∀ id ∈ rules.entryIds, id ∈ rl.parentIds ∨ id = rl.unlessRule.id
  else
    (∀ cond ∈ rl.triggerFields.toList, cond.2.1 = .regex → cond.1 ∈ rules.fieldNames →
      (host.compile cond.2.2).isOk = true) ∧
    (∀ cond ∈ rl.triggerTraits.toList, cond.2.1 = .regex → cond.1 ∈ traitNames →
      (host.compile cond.2.2).isOk = true) ∧
    ¬ (rl.priority = 0 ∧ rl.id = -1)

instance (host : Host ρ) (rules : RuleCfg ρ) (rl : Rule ρ) : Decidable (rl.Clean host rules) :=
  inferInstanceAs (Decidable (if rl.HasUnless then _ else _))

/-- A configuration without the rules and patterns that can end a call. -/
def RuleCfg.Clean (host : Host ρ) (rules : RuleCfg ρ) : Prop :=
  ∀ v ∈ rules.views, v.1.Clean host rules

instance (host : Host ρ) (rules : RuleCfg ρ) : Decidable (rules.Clean host) :=
  inferInstanceAs (Decidable (∀ v ∈ rules.views, _))

theorem checkTopRules_ruleId (ev : Event) (forest : RuleForest ρ) (st : RulesState) {e : Event}
    (h : (checkTopRules host now ev forest st).result = .ok e) :
    e.ruleId ∈ ev.ruleId :: (RoseTree.views forest).map fun v => v.1.id := by
  refine checkTopRules_induction (P := fun ev forest _ o => o.result = .ok e →
    e.ruleId ∈ ev.ruleId :: (RoseTree.views forest).map fun v => v.1.id)
    ?_ ?_ ?_ ?_ ev forest st h
  · intro ev forest st f _ h
    cases h
  · intro ev forest st _ h
    cases h
    exact List.mem_cons_self
  · intro ev forest st ms _ _ _ h
    cases h
  · intro ev forest st ms fit checked hres hpick ev' st' below ih h
    have hfit : fit ∈ forest := checkSiblings_mem hres (pickFit_mem hpick)
    apply List.mem_cons_of_mem
    rcases List.mem_cons.mp (ih h) with hself | hbelow
    · rw [hself]
      exact List.mem_map_of_mem (f := fun v => v.1.id) (RoseTree.view_mem_views hfit)
    · obtain ⟨v, hv, hid⟩ := List.mem_map.mp hbelow
      have hsub := List.map_subset RoseTree.view (RoseTree.forestNodes_children_subset
        (RoseTree.mem_forestNodes_of_mem hfit))
      exact List.mem_map.mpr ⟨v, hsub hv, hid⟩

theorem enterGroups_ruleId {st : RulesState} {ge : Event} {gs : RulesState}
    (h : enterGroups host now se rules st = some (ge, gs)) : ge.ruleId ∈ rules.entryIds := by
  obtain ⟨start, hformat, hstd, -, -⟩ := enterGroups_eq_some h
  have hid := checkTopRules_ruleId start rules.stdRules st hstd
  rw [formatLog_eq hformat] at hid
  exact hid

theorem not_reachesBadPattern {entries : StringMap} {conds : List (String × RuleMatch × String)}
    {names : List String} (hnames : ∀ name ∈ entries, name ∈ names)
    (h : ∀ cond ∈ conds, cond.2.1 = .regex → cond.1 ∈ names →
      (host.compile cond.2.2).isOk = true) : ¬ ReachesBadPattern host entries conds := by
  rintro ⟨pre, cond, post, rfl, -, hname, hkind, what, hcompile⟩
  have hok := h cond (by simp) hkind (hnames _ hname)
  simp [hcompile, Except.isOk, Except.toBool] at hok

theorem Rule.Clean.not_badPattern {ev : Event} {rl : Rule ρ} (h : rl.Clean host rules)
    (hev : Named rules ev) : ¬ BadPattern host ev rl := by
  rintro ⟨hunless, -, hbad⟩
  rw [Rule.Clean, if_neg hunless] at h
  obtain ⟨hfields, htraits, -⟩ := h
  rcases hbad with hbad | ⟨-, hbad⟩
  · exact not_reachesBadPattern hev.fields hfields hbad
  · exact not_reachesBadPattern hev.traits htraits hbad

theorem Rule.Clean.not_stray {st : RulesState} {ev : Event} {rl : Rule ρ}
    (h : rl.Clean host rules) (hrules : rules.Valid host)
    (hplaced : Placed host now se rules st ev rl) : ¬ StrayUnless ev rl := by
  rintro ⟨hunless, hact, hparent, hid⟩
  rw [Rule.Clean, if_pos hunless] at h
  rcases hplaced.cases hrules with ⟨-, hgrouped⟩ | ⟨-, -, gs, hentered⟩ | ⟨hmem, -⟩ | ⟨-, heq⟩
  · exact hgrouped (.inr hact)
  · exact (h hact _ (enterGroups_ruleId hentered)).elim hparent hid
  · exact hparent hmem
  · exact hid heq.symm

/-- Under a clean configuration every call returns, whatever the states are. -/
theorem processLog_returns (hrules : rules.Valid host) (hclean : rules.Clean host) (now : ℤ)
    (se : SourceEvent) (st : RulesState) :
    ∃ e, (processLog host now se rules st).result = .ok e := by
  have hrule : ∀ {pre post ev rl},
      (processLog host now se rules st).trace = pre ++ .check ev rl :: post →
      Placed host now se rules st ev rl ∧ Named rules ev ∧ rl.Clean host rules := by
    intro pre post ev rl htrace
    obtain ⟨-, -, -, hplaced⟩ := processLog_act htrace
    obtain ⟨v, hv, heq⟩ := hplaced.mem_views
    have hvclean := hclean v hv
    rw [heq] at hvclean
    exact ⟨hplaced, processLog_named htrace, hvclean⟩
  refine (processLog_returns_iff hrules now se st).mpr ⟨?_, ?_⟩
  · intro ev rl hmem
    obtain ⟨pre, post, htrace⟩ := List.append_of_mem hmem
    obtain ⟨hplaced, hnamed, hrl⟩ := hrule htrace
    exact ⟨hrl.not_stray hrules hplaced, hrl.not_badPattern hnamed⟩
  · rintro ⟨above, level, htrace, -, ⟨pre, ev, rl, post, c, rfl, hcheck, hm⟩, hlow⟩
    rw [← List.append_assoc] at htrace
    obtain ⟨-, -, hrl⟩ := hrule htrace
    have hunless := (checkRule_matched (Prod.ext rfl hcheck) hm).1
    rw [Rule.Clean, if_neg hunless] at hrl
    exact hrl.2.2 (hlow pre ev rl post c rfl hcheck hm)

/-- A call under accepted rules uses no index out of range, and it returns if the rules are
clean, whatever has been called before. -/
theorem accepted_returns {roots : List XMLNode} (h : parseFiles host roots = .ok rules)
    (now : ℤ) (se : SourceEvent) (st : RulesState) :
    (∀ i, (processLog host now se rules st).result ≠ .error (.outOfRange i)) ∧
      (rules.Clean host → ∃ e, (processLog host now se rules st).result = .ok e) := by
  have hrules := parseFiles_valid h
  exact ⟨fun i => processLog_ne_outOfRange hrules i,
    fun hclean => processLog_returns hrules hclean now se st⟩

/-- A rule that waits and counts: it is checked under every event. -/
def strayFile : XMLNode := { name := "rule_group", children := [
  { name := "group", value := "scan" },
  { name := "rule", attributes := [("id", "1"), ("priority", "3")], children := [
    { name := "regex", value := "login" }] },
  { name := "rule", attributes := [("id", "2"), ("priority", "3")], children := [
    { name := "if_rule", value := "1" },
    { name := "unless_rule", attributes := [("timeout", "5")], value := "1" },
    { name := "activation_group", attributes := [("time", "5"), ("rate", "2")],
      value := "scan" }] }] }

/-- A condition whose pattern is no expression. -/
def badPatternFile : XMLNode := { name := "rule_group", children := [
  { name := "rule", attributes := [("id", "1"), ("priority", "3")], children := [
    { name := "if_trait", attributes := [("name", "hostname"), ("match", "regex")],
      value := "(" }] }] }

/-- A rule with the largest id and the lowest priority. -/
def lastIdFile : XMLNode := { name := "rule_group", children := [
  { name := "rule", attributes := [("id", "4294967295"), ("priority", "0")], children := [
    { name := "regex", value := "login" }] }] }

/-- What the first call under a rule file comes to. -/
def firstResult (file : XMLNode) (message : String) : Except String (Except Fault Event) :=
  (parseFiles plainHost [file]).map fun rules =>
    (processLog plainHost 7 { message := message } rules ∅).result

/-- Accepted rules can stop the analysis in each of the three ways. -/
theorem accepted_not_returns :
    firstResult strayFile "hello" = .ok (.error
        (.libException "Unknown child case: 0(event) 1 (parent) 1(unless)")) ∧
      firstResult badPatternFile "hello" = .ok (.error
        (.regexError "Parenthesis is not closed.")) ∧
      firstResult lastIdFile "login bob" = .ok (.error noFit) := by
  decide +kernel

/-- One rule waits, one counts, and one has a pattern for a field that no event can have. -/
def cleanFile : XMLNode := { name := "rule_group", children := [
  { name := "group", value := "login" },
  { name := "rule", attributes := [("id", "1"), ("priority", "3")], children := [
    { name := "group", value := "login" }, { name := "regex", value := "login (.*)" },
    { name := "fields", value := "user" }] },
  { name := "rule", attributes := [("id", "2"), ("priority", "4")], children := [
    { name := "if_rule", value := "1" },
    { name := "unless_rule", attributes := [("timeout", "5")], value := "1" }] },
  { name := "rule", attributes := [("id", "3"), ("priority", "0")], children := [
    { name := "if_trait", attributes := [("name", "hostname"), ("match", "regex")],
      value := "host" },
    { name := "if_field", attributes := [("name", "uid"), ("match", "regex")], value := "(" }] },
  { name := "rule", attributes := [("id", "4"), ("priority", "5")], children := [
    { name := "activation_group", attributes := [("time", "5"), ("rate", "2")],
      value := "login" }] }] }

theorem accepted_returns_cleanFile :
    ∃ rules, parseFiles plainHost [cleanFile] = .ok rules ∧
      (∀ i, (processLog plainHost 7 { message := "login bob" } rules ∅).result ≠
        .error (.outOfRange i)) ∧
      ∃ e, (processLog plainHost 7 { message := "login bob" } rules ∅).result = .ok e := by
  have hok : (parseFiles plainHost [cleanFile]).isOk = true := by decide +kernel
  have haccepted := plainRules_eq hok
  have hclean : (plainRules [cleanFile]).Clean plainHost := by decide +kernel
  obtain ⟨hrange, hreturns⟩ := accepted_returns haccepted 7 { message := "login bob" } ∅
  exact ⟨plainRules [cleanFile], haccepted, hrange, hreturns hclean⟩

end Call

end Ctguard
