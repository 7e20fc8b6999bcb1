import Ctguard.GroupRule
import Ctguard.RuleChain

/-!
# The names on an event

The fields of an event are named by the formats and by the rules, and its traits by the program
itself. So the conditions of a rule on any other name are never evaluated.
-/

namespace Ctguard

variable {ρ : Type} {host : Host ρ} {now : ℤ} {rules : RuleCfg ρ} {ev : Event} {name : String}

/-- The fields that the files can set. -/
def RuleCfg.fieldNames (rules : RuleCfg ρ) : List String :=
  rules.formats.flatMap Format.fields ++ rules.views.flatMap fun v => v.1.regexFields

/-- The traits of a received event, and those that the program adds. -/
def traitNames : List String :=
  ["hostname", "source_program", "source_domain", "control", "time_scanned", "time_send", "format",
    "trigger_logs", "trigger_same_logs"]

section Writes

theorem mem_assign {m : StringMap} {kvs : Captures} :
    name ∈ assign m kvs ↔ name ∈ m ∨ name ∈ kvs.map Prod.fst := by
  induction kvs generalizing m with
  | nil => simp [assign]
  | cons kv kvs ih =>
    rw [assign, List.foldl_cons, ← assign, ih, Std.ExtTreeMap.mem_insert, List.map_cons,
      List.mem_cons, Std.LawfulEqCmp.compare_eq_iff_eq]
    tauto

/-- Sub-matches are only written under the names of the rule. -/
theorem ruleWrites_names (host : Host ρ) (ev : Event) (rl : Rule ρ) :
    (ruleWrites host ev rl).map Prod.fst ⊆ rl.regexFields := by
  intro name hname
  obtain ⟨⟨n, m⟩, hmem, rfl⟩ := List.mem_map.mp hname
  exact (List.of_mem_zip (List.mem_of_mem_filter hmem)).1

theorem formatWrites_names (host : Host ρ) (logstr : String) (formats : List (Format ρ)) :
    (formatWrites host logstr formats).map Prod.fst ⊆ formats.flatMap Format.fields := by
  intro name hname
  obtain ⟨⟨n, m⟩, hmem, rfl⟩ := List.mem_map.mp hname
  rw [formatWrites] at hmem
  cases hmatching : matchingFormat host logstr formats with
  | none => simp [hmatching] at hmem
  | some p =>
    obtain ⟨f, ms⟩ := p
    simp only [hmatching] at hmem
    obtain ⟨g, hg, hsome⟩ := List.exists_of_findSome?_eq_some hmatching
    obtain ⟨ms', -, heq⟩ := Option.map_eq_some_iff.mp hsome
    cases heq
    exact List.mem_flatMap_of_mem hg (List.of_mem_zip hmem).1

theorem activeBy_names (ev : Event) (rl : Rule ρ) (saved : List (ℤ × Event)) :
    (activeBy ev rl saved).2.map Prod.fst ⊆ traitNames := by
  have htriggers : "trigger_logs" ∈ traitNames ∧ "trigger_same_logs" ∈ traitNames := by decide
  rw [activeBy]
  split
  · split
    · simpa using htriggers.1
    · split
      · simp
      · dsimp only
        split
        · simpa using htriggers.2
        · simp
  · simp

theorem checkActivation_names (ev : Event) (rl : Rule ρ) (st : RulesState) :
    (checkActivation now ev rl st).2.traits.map Prod.fst ⊆ traitNames := by
  rw [checkActivation]
  split
  · dsimp only
    split
    · simp
    · exact activeBy_names ev rl _
  · simp

end Writes

section Named

/-- The event has no other names than these. -/
structure Named (rules : RuleCfg ρ) (ev : Event) : Prop where
  fields : ∀ name ∈ ev.fields, name ∈ rules.fieldNames
  traits : ∀ name ∈ ev.traits, name ∈ traitNames

theorem named_ofSource (rules : RuleCfg ρ) (host : Host ρ) (se : SourceEvent) :
    Named rules (.ofSource host se) where
  fields name hname := by simp [Event.ofSource] at hname
  traits name hname := by
    rw [Event.ofSource, Std.ExtTreeMap.mem_ofList] at hname
    exact List.mem_append_left ["format", "trigger_logs", "trigger_same_logs"]
      (List.contains_iff_mem.mp hname)

theorem Named.formatLog {start : Event} (h : Named rules ev)
    (hstart : formatLog host ev rules.formats = .ok start) : Named rules start := by
  rw [formatLog_eq hstart]
  constructor
  · intro name hname
    rcases mem_assign.mp hname with hold | hnew
    · exact h.fields name hold
    · exact List.mem_append_left _ (formatWrites_names host ev.logstr rules.formats hnew)
  · intro name hname
    rcases Std.ExtTreeMap.mem_insert.mp hname with heq | hold
    · obtain rfl := Std.LawfulEqCmp.compare_eq_iff_eq.mp heq
      decide
    · exact h.traits name hold

/-- What a rule that matches writes has names too. -/
theorem Named.updateEvent {st : RulesState} {rl : Rule ρ} {c : Checked} {e : Event}
    (h : Named rules ev) (hrule : rl.regexFields ⊆ rules.fieldNames)
    (hcheck : (checkRule host now e rl st).2 = .ok c) (hm : c.matched = true) :
    Named rules (updateEvent ev rl c) := by
  obtain ⟨-, -, -, htraits, -⟩ := checkRule_matched (Prod.ext rfl hcheck) hm
  constructor
  · intro name hname
    rcases mem_assign.mp hname with hold | hnew
    · exact h.fields name hold
    · rw [checkRule_fields (Prod.ext rfl hcheck) hm] at hnew
      exact hrule (ruleWrites_names host e rl hnew)
  · intro name hname
    rcases mem_assign.mp hname with hold | hnew
    · exact h.traits name hold
    · rw [htraits] at hnew
      exact checkActivation_names e rl st hnew

/-- After some acts of a call whose chosen rules have matched, the event has no other names. -/
theorem Named.eventAfter {acts : List (Act ρ)} (h : Named rules ev)
    (hfit : ∀ e rl c, .fit e rl c ∈ acts → rl.regexFields ⊆ rules.fieldNames ∧ c.matched = true ∧
      ∃ st, (checkRule host now e rl st).2 = .ok c) : Named rules (eventAfter ev acts) := by
  induction acts generalizing ev with
  | nil => exact h
  | cons a acts ih =>
    have hacts := fun e rl c hmem => hfit e rl c (List.mem_cons_of_mem a hmem)
    cases a with
    | check e rl => exact ih h hacts
    | fit e rl c =>
      obtain ⟨hrule, hm, st, hcheck⟩ := hfit e rl c List.mem_cons_self
      exact ih (h.updateEvent hrule hcheck hm) hacts

/-- Every act of a call works on an event that has no other names. -/
theorem processLog_named {se : SourceEvent} {st : RulesState} {pre post : List (Act ρ)} {a : Act ρ}
    (htrace : (processLog host now se rules st).trace = pre ++ a :: post) :
    Named rules a.event := by
  obtain ⟨start, hformat, hev, -⟩ := processLog_act htrace
  have hstart := (named_ofSource rules host se).formatLog hformat
  rw [hev]
  apply hstart.eventAfter
  intro e rl c hmem
  obtain ⟨before, after, rfl⟩ := List.append_of_mem hmem
  rw [List.append_assoc, List.cons_append] at htrace
  obtain ⟨earlier, between, -, -, hcheck, hm⟩ := processLog_fit htrace
  obtain ⟨-, -, -, hplaced⟩ := processLog_act htrace
  obtain ⟨v, hv, rfl⟩ := hplaced.mem_views
  refine ⟨?_, hm, _, hcheck⟩
  intro name hname
  exact List.mem_append_right _ (List.mem_flatMap_of_mem hv hname)

end Named

end Ctguard
