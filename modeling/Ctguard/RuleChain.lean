import Ctguard.PlainHost
import Ctguard.RuleWalk

/-!
# The reference chain of rules

What a call of `process_log` means, without the running maximum, the moved capture
lists and the bound on the depth: a chain of rules through the standard rules and
another through the group rules. Every link records the event as it stood when its
level began. The returned event is summed up from the links alone.
-/

namespace Ctguard

variable {ρ : Type}

/-- A chosen rule with the event of its level and what it extracted. -/
structure Link (ρ : Type) where
  before : Event
  rule : Rule ρ
  checked : Checked

/-- The chain of a forest: all siblings are checked against the event of their level. If
none matches the chain ends, else it goes on below the first one of the highest rank. -/
inductive Chain (host : Host ρ) (now : ℤ) :
    Event → RuleForest ρ → RulesState → List (Link ρ) → Event → RulesState → Prop
  | stop {ev : Event} {rules : RuleForest ρ} {st st' : RulesState}
      {results : List (Candidate ρ)} (level : LevelChecks host now ev rules st results st')
      (none : matching results = []) : Chain host now ev rules st [] ev st'
  | next {ev last : Event} {rules : RuleForest ρ} {st st' st'' : RulesState}
      {results : List (Candidate ρ)} {fit : RoseTree (Rule ρ)} {checked : Checked}
      {links : List (Link ρ)} (level : LevelChecks host now ev rules st results st')
      (best : (matching results).argmax Candidate.rank = some (fit, checked))
      (below : Chain host now (updateEvent ev fit.root checked) fit.children
        (updateState st' fit.root (updateEvent ev fit.root checked)) links last st'') :
      Chain host now ev rules st (⟨ev, fit.root, checked⟩ :: links) last st''

section Refinement

variable {host : Host ρ} {now : ℤ}

/-- A walk that returns has gone along the reference chain. -/
theorem chain_of_checkTopRules (ev : Event) (rules : RuleForest ρ) (st : RulesState)
    {last : Event} (h : (checkTopRules host now ev rules st).result = .ok last) :
    ∃ links, Chain host now ev rules st links last (checkTopRules host now ev rules st).state := by
  refine checkTopRules_induction (P := fun ev rules st o => o.result = .ok last →
    ∃ links, Chain host now ev rules st links last o.state) ?_ ?_ ?_ ?_ ev rules st h
  · intro ev rules st f _ h
    cases h
  · intro ev rules st hnone h
    cases h
    obtain ⟨results, hlevel, hms⟩ := checkSiblings_eq_ok_iff.mp hnone
    exact ⟨[], .stop hlevel hms.symm⟩
  · intro ev rules st ms _ _ _ h
    cases h
  · intro ev rules st ms fit checked hsome hpick ev' st' below ih h
    obtain ⟨results, hlevel, rfl⟩ := checkSiblings_eq_ok_iff.mp hsome
    obtain ⟨links, hchain⟩ := ih h
    rw [pickFit_eq] at hpick
    exact ⟨_, .next hlevel (Option.eq_some_of_filter_eq_some hpick) hchain⟩

theorem Chain.last_eq {ev last : Event} {rules : RuleForest ρ} {st st' : RulesState}
    {links : List (Link ρ)} (h : Chain host now ev rules st links last st') :
    last = links.foldl (fun e l => updateEvent e l.rule l.checked) ev := by
  induction h with
  | stop => rfl
  | next level best below ih => exact ih

/-- Every link matched when it was checked against the event of its level. -/
theorem Chain.checked_of_mem {ev last : Event} {rules : RuleForest ρ} {st st' : RulesState}
    {links : List (Link ρ)} (h : Chain host now ev rules st links last st') {l : Link ρ}
    (hl : l ∈ links) :
    ∃ s s', checkRule host now l.before l.rule s = (s', .ok l.checked) ∧
      l.checked.matched = true := by
  induction h with
  | stop => simp at hl
  | next level best below ih =>
    rcases List.mem_cons.mp hl with rfl | hl
    · have hmem := List.argmax_mem best
      obtain ⟨s, s', hs⟩ := level.check_of_mem (List.mem_of_mem_filter hmem)
      exact ⟨s, s', hs, by simpa using List.of_mem_filter hmem⟩
    · exact ih hl

end Refinement

section Writers

/-- What the last write to a name leaves. -/
def lastWrite (k : String) (kvs : Captures) : Option String :=
  ((kvs.filter (·.1 = k)).getLast?).map (·.2)

@[simp] theorem lastWrite_nil (k : String) : lastWrite k [] = none := rfl

theorem lastWrite_append (k : String) (kvs kvs' : Captures) :
    lastWrite k (kvs ++ kvs') = (lastWrite k kvs').or (lastWrite k kvs) := by
  rw [lastWrite, List.filter_append, List.getLast?_append, lastWrite, lastWrite]
  cases (kvs'.filter (·.1 = k)).getLast? <;> rfl

/-- Assignments in order leave the last write of each name. -/
theorem getElem?_assign (m : StringMap) (kvs : Captures) (k : String) :
    (assign m kvs)[k]? = (lastWrite k kvs).or m[k]? := by
  induction kvs using List.reverseRecOn with
  | nil => rfl
  | append_singleton kvs kv ih =>
    have hassign : assign m (kvs ++ [kv]) = (assign m kvs).insert kv.1 kv.2 := by
      simp [assign]
    rw [hassign, Std.ExtTreeMap.getElem?_insert, lastWrite_append, ih]
    by_cases h : kv.1 = k <;> simp [lastWrite, h]

/-- The writes of a rule: the sub-matches of its expression, except the empty ones. -/
def ruleWrites (host : Host ρ) (ev : Event) (rl : Rule ρ) : Captures :=
  (rl.regexFields.zip ((regexMatches host ev rl).getD [])).filter (·.2 ≠ "")

theorem captureFields_eq {names : List String} {i : ℕ} {ms : List String} {kvs : Captures}
    (h : captureFields names i ms = .ok kvs) :
    kvs = ((names.drop i).zip ms).filter (·.2 ≠ "") := by
  induction ms generalizing i kvs with
  | nil =>
    cases h
    simp
  | cons m ms ih =>
    rw [captureFields] at h
    by_cases hm : m = ""
    · rw [if_pos hm] at h
      have hkvs := ih h
      rw [← List.drop_drop] at hkvs
      cases hdrop : names.drop i <;> simp_all
    · rw [if_neg hm] at h
      cases hname : names[i]? with
      | none => simp [hname] at h
      | some name =>
        simp only [hname] at h
        cases hmore : captureFields names (i + 1) ms with
        | error f => simp [hmore, Except.map] at h
        | ok more =>
          simp only [hmore, Except.map, Except.ok.injEq] at h
          have hdrop : names.drop i = name :: names.drop (i + 1) := by
            obtain ⟨hi, rfl⟩ := List.getElem?_eq_some_iff.mp hname
            exact List.drop_eq_getElem_cons hi
          rw [← h, hdrop, ih hmore]
          simp [hm]

/-- A rule that matches extracts what its expression captures. -/
theorem checkRule_fields {host : Host ρ} {now : ℤ} {ev : Event} {rl : Rule ρ}
    {st st' : RulesState} {c : Checked} (h : checkRule host now ev rl st = (st', .ok c))
    (hm : c.matched = true) : c.fields = ruleWrites host ev rl := by
  obtain ⟨-, -, -, -, hcond⟩ := checkRule_matched h hm
  obtain ⟨-, -, -, ms, hms, hcapture⟩ := checkConditions_eq_some.mp hcond
  rw [captureFields_eq hcapture, ruleWrites, hms]
  simp

theorem formatFields_eq {names : List String} {i : ℕ} {ms : List String} {kvs : Captures}
    (h : formatFields names i ms = .ok kvs) : kvs = (names.drop i).zip ms := by
  induction ms generalizing i kvs with
  | nil =>
    cases h
    simp
  | cons m ms ih =>
    rw [formatFields] at h
    cases hname : names[i]? with
    | none => simp [hname] at h
    | some name =>
      simp only [hname] at h
      cases hmore : formatFields names (i + 1) ms with
      | error f => simp [hmore, Except.map] at h
      | ok more =>
        simp only [hmore, Except.map, Except.ok.injEq] at h
        have hdrop : names.drop i = name :: names.drop (i + 1) := by
          obtain ⟨hi, rfl⟩ := List.getElem?_eq_some_iff.mp hname
          exact List.drop_eq_getElem_cons hi
        rw [← h, hdrop, ih hmore]
        rfl

/-- The first format that matches a whole log string, with its sub-matches. -/
def matchingFormat (host : Host ρ) (logstr : String) (formats : List (Format ρ)) :
    Option (Format ρ × List String) :=
  formats.findSome? fun f => (host.fullMatch f.reg logstr).map (f, ·)

/-- The writes of the format; here empty sub-matches count. -/
def formatWrites (host : Host ρ) (logstr : String) (formats : List (Format ρ)) : Captures :=
  match matchingFormat host logstr formats with
  | none => []
  | some (f, ms) => f.fields.zip ms

def formatName (host : Host ρ) (logstr : String) (formats : List (Format ρ)) : String :=
  match matchingFormat host logstr formats with
  | none => "unknown"
  | some (f, _) => f.name

theorem formatLog_eq {host : Host ρ} {ev ev' : Event} {formats : List (Format ρ)}
    (h : formatLog host ev formats = .ok ev') :
    ev' = { ev with
      fields := assign ev.fields (formatWrites host ev.logstr formats)
      traits := ev.traits.insert "format" (formatName host ev.logstr formats) } := by
  induction formats with
  | nil =>
    cases h
    rfl
  | cons f fs ih =>
    rw [formatLog] at h
    cases hmatch : host.fullMatch f.reg ev.logstr with
    | none =>
      simp only [hmatch] at h
      rw [ih h]
      simp [formatWrites, formatName, matchingFormat, hmatch]
    | some ms =>
      simp only [hmatch] at h
      cases hkvs : formatFields f.fields 0 ms with
      | error f => simp [hkvs, Except.map] at h
      | ok kvs =>
        simp only [hkvs, Except.map, Except.ok.injEq] at h
        have hzip := formatFields_eq hkvs
        rw [← h, hzip]
        simp [formatWrites, formatName, matchingFormat, hmatch]

end Writers

section Summary

/-- What a returned event holds, told from the links of both chains alone. -/
structure Summary (host : Host ρ) (se : SourceEvent) (formats : List (Format ρ))
    (links : List (Link ρ)) (e : Event) : Prop where
  logstr : e.logstr = se.message
  controlMessage : e.controlMessage = se.controlMessage
  ruleId : e.ruleId = (links.getLast?.map (·.rule.id)).getD 0
  priority : e.priority = (links.getLast?.map (·.rule.priority)).getD 0
  description : e.description = (links.getLast?.map (·.rule.description)).getD ""
  alwaysAlert : e.alwaysAlert = (links.getLast?.map (·.rule.alwaysAlert)).getD false
  interventions : e.interventions = (links.getLast?.map (·.rule.interventions)).getD []
  groups : ∀ g, g ∈ e.groups ↔ ∃ l ∈ links, g ∈ l.rule.groups
  fields : ∀ k, e.fields[k]? = lastWrite k
    (formatWrites host se.message formats ++
      links.flatMap fun l => ruleWrites host l.before l.rule)
  traits : ∀ k, e.traits[k]? = (lastWrite k
    (("format", formatName host se.message formats) ::
      links.flatMap fun l => l.checked.traits)).or (Event.ofSource host se).traits[k]?

variable {host : Host ρ} {now : ℤ}

/-- Before the first rule there is nothing but the source and the format. -/
theorem summary_formatLog {se : SourceEvent} {formats : List (Format ρ)} {e : Event}
    (h : formatLog host (.ofSource host se) formats = .ok e) : Summary host se formats [] e := by
  rw [formatLog_eq h]
  refine ⟨rfl, rfl, rfl, rfl, rfl, rfl, rfl, ?_, ?_, ?_⟩
  · intro g
    simp [Event.ofSource]
  · intro k
    rw [getElem?_assign]
    simp [Event.ofSource]
  · intro k
    have hassign : (Event.ofSource host se).traits.insert "format"
        (formatName host se.message formats) =
        assign (Event.ofSource host se).traits
          [("format", formatName host se.message formats)] := rfl
    rw [← getElem?_assign]
    exact congrArg (·[k]?) hassign

/-- One more link changes the event as the summary says. -/
theorem Summary.concat {se : SourceEvent} {formats : List (Format ρ)} {links : List (Link ρ)}
    {e : Event} (h : Summary host se formats links e) (l : Link ρ)
    (hl : l.checked.fields = ruleWrites host l.before l.rule) :
    Summary host se formats (links ++ [l]) (updateEvent e l.rule l.checked) := by
  refine ⟨h.logstr, h.controlMessage, ?_, ?_, ?_, ?_, ?_, ?_, ?_, ?_⟩
  · simp [updateEvent]
  · simp [updateEvent]
  · simp [updateEvent]
  · simp [updateEvent]
  · simp [updateEvent]
  · intro g
    simp only [updateEvent, Std.ExtTreeSet.mem_union_iff, h.groups g, List.mem_append,
      List.mem_singleton, or_and_right, exists_or, exists_eq_left]
  · intro k
    simp only [updateEvent, getElem?_assign, h.fields k, List.flatMap_append,
      List.flatMap_singleton, ← List.append_assoc, lastWrite_append _ (_ ++ _), hl]
  · intro k
    simp only [updateEvent, getElem?_assign, h.traits k, List.flatMap_append,
      List.flatMap_singleton, ← List.cons_append, lastWrite_append _ (_ :: _), Option.or_assoc]

theorem Summary.append {se : SourceEvent} {formats : List (Format ρ)} {links : List (Link ρ)}
    {e : Event} (h : Summary host se formats links e) (more : List (Link ρ))
    (hmore : ∀ l ∈ more, l.checked.fields = ruleWrites host l.before l.rule) :
    Summary host se formats (links ++ more)
      (more.foldl (fun e l => updateEvent e l.rule l.checked) e) := by
  induction more generalizing links e with
  | nil => simpa using h
  | cons l more ih =>
    have hl := hmore l List.mem_cons_self
    have hlinks := ih (h.concat l hl) fun l' hl' => hmore l' (List.mem_cons_of_mem _ hl')
    simpa using hlinks

theorem Chain.fields_eq {ev last : Event} {rules : RuleForest ρ} {st st' : RulesState}
    {links : List (Link ρ)} (h : Chain host now ev rules st links last st') :
    ∀ l ∈ links, l.checked.fields = ruleWrites host l.before l.rule := by
  intro l hl
  obtain ⟨s, s', hcheck, hm⟩ := h.checked_of_mem hl
  exact checkRule_fields hcheck hm

/-- A call of `process_log` that returns computes the reference chains. -/
theorem processLog_chain (se : SourceEvent) (rules : RuleCfg ρ) (st : RulesState) {e : Event}
    (h : (processLog host now se rules st).result = .ok e) :
    ∃ start middle st' stdLinks groupLinks,
      Summary host se rules.formats [] start ∧
      Chain host now start rules.stdRules st stdLinks middle st' ∧
      Chain host now middle rules.groupRules st' groupLinks e
        (processLog host now se rules st).state ∧
      Summary host se rules.formats (stdLinks ++ groupLinks) e := by
  rw [processLog] at h ⊢
  cases hformat : formatLog host (.ofSource host se) rules.formats with
  | error f => simp [hformat] at h
  | ok start =>
    simp only [hformat, Outcome.andThen] at h ⊢
    cases hstd : (checkTopRules host now start rules.stdRules st).result with
    | error f => simp [hstd] at h
    | ok middle =>
      simp only [hstd] at h ⊢
      obtain ⟨stdLinks, hstdChain⟩ := chain_of_checkTopRules _ _ _ hstd
      obtain ⟨groupLinks, hgroupChain⟩ := chain_of_checkTopRules _ _ _ h
      have hstart := summary_formatLog hformat
      have hmiddle := hstart.append stdLinks hstdChain.fields_eq
      rw [← hstdChain.last_eq, List.nil_append] at hmiddle
      have hlast := hmiddle.append groupLinks hgroupChain.fields_eq
      rw [← hgroupChain.last_eq] at hlast
      exact ⟨start, middle, _, stdLinks, groupLinks, hstart, hstdChain, hgroupChain, hlast⟩

/-- Two rules that compete for logins, one below the second and one for its group. -/
def loginRules : RuleCfg PlainRegex where
  formats := [⟨"login", ⟨"login ".toList, true⟩, ["user"]⟩]
  stdRules := [
    ⟨{ id := 1, priority := 2, reg := some ⟨"login".toList, false⟩ }, []⟩,
    ⟨{ id := 2, priority := 3, groups := .ofList ["auth"], regexFields := ["rest"],
       reg := some ⟨"log".toList, true⟩ },
      [⟨{ id := 3, priority := 4, parentIds := [2],
          triggerFields := .ofList [("user", RuleMatch.exact, "bob")] }, []⟩]⟩]
  groupRules := [⟨{ id := 4, priority := 1, triggerGroup := "auth" }, []⟩]
  groups := .ofList ["auth"]

def loginSource : SourceEvent := { message := "login bob" }

theorem processLog_chain_login :
    ∃ e start middle st' stdLinks groupLinks, e.ruleId = 4 ∧
      Summary plainHost loginSource loginRules.formats [] start ∧
      Chain plainHost 7 start loginRules.stdRules ∅ stdLinks middle st' ∧
      Chain plainHost 7 middle loginRules.groupRules st' groupLinks e
        (processLog plainHost 7 loginSource loginRules ∅).state ∧
      Summary plainHost loginSource loginRules.formats (stdLinks ++ groupLinks) e := by
  have hid : (processLog plainHost 7 loginSource loginRules ∅).result.map (·.ruleId) = .ok 4 := by
    decide +kernel
  cases hres : (processLog plainHost 7 loginSource loginRules ∅).result with
  | error f => simp [hres, Except.map] at hid
  | ok e =>
    have he : e.ruleId = 4 := by simpa [hres, Except.map] using hid
    obtain ⟨start, middle, st', stdLinks, groupLinks, h⟩ :=
      processLog_chain loginSource loginRules ∅ hres
    exact ⟨e, start, middle, st', stdLinks, groupLinks, he, h⟩

end Summary

end Ctguard
