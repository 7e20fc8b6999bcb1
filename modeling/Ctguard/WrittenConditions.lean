import Ctguard.ActivationWindow
import Ctguard.RuleChain

/-!
# Written conditions

The condition elements of a rule's node, read from the text alone, and what each of them
asks of the moment at which the rule is chosen. Reading a node keeps the first condition
for a field or a trait and the last group of each kind, and a rule that is put behind the
group rules is no longer asked for its parents. What is dropped in this way is read from
the text as well; all else is enforced at every choice of the rule.
-/

namespace Ctguard

open SlidingWindow

variable {ρ : Type}

section Text

/-- What the child nodes of one name say, as far as it can be read. -/
def readNamed {β : Type} (name : String) (read : XMLNode → Option β) (nodes : List XMLNode) :
    List β :=
  nodes.filterMap fun node => if node.name = name then read node else none

def ifRules (nodes : List XMLNode) : List RuleId :=
  (readNamed "if_rule" (fun node => (parseIfRule node).toOption) nodes).flatten

def ifGroups (nodes : List XMLNode) : List String :=
  readNamed "if_group" (fun node => some node.value) nodes

/-- The conditions of the `if_field` or `if_trait` nodes; the rule's id is for messages only. -/
def entryConditions (kind : String) (nodes : List XMLNode) : List (String × RuleMatch × String) :=
  readNamed kind (fun node => (parseEntry kind 0 node).toOption) nodes

def regexText (nodes : List XMLNode) : String :=
  String.join (readNamed "regex" (fun node => some node.value) nodes)

def activationGroups (nodes : List XMLNode) : List ActivationGroup :=
  readNamed "activation_group" (fun node => (parseActivationGroup 0 node).toOption) nodes

def sameFields (nodes : List XMLNode) : List String :=
  readNamed "same_field" (fun node => some node.value) nodes

theorem readNamed_append {β : Type} (name : String) (read : XMLNode → Option β)
    (nodes nodes' : List XMLNode) :
    readNamed name read (nodes ++ nodes') = readNamed name read nodes ++ readNamed name read nodes' :=
  List.filterMap_append

theorem readNamed_of_eq {β : Type} {name : String} {read : XMLNode → Option β} {node : XMLNode}
    {b : β} (h : node.name = name) (hread : read node = some b) :
    readNamed name read [node] = [b] := by
  simp [readNamed, h, hread]

/-- The id of the rule occurs in messages only. -/
theorem parseEntry_id {kind : String} {id : RuleId} {node : XMLNode}
    {cond : String × RuleMatch × String} (h : parseEntry kind id node = .ok cond) :
    parseEntry kind 0 node = .ok cond := by
  simp only [parseEntry, bind_eq_ok, reject_eq_ok] at h ⊢
  exact h

theorem parseActivationGroup_id {id : RuleId} {node : XMLNode} {ag : ActivationGroup}
    (h : parseActivationGroup id node = .ok ag) : parseActivationGroup 0 node = .ok ag := by
  simp only [parseActivationGroup, bind_eq_ok, reject_eq_ok] at h ⊢
  exact h

/-- The map of the conditions that are the first for their name. -/
def keepFirst (conds : List (String × RuleMatch × String)) : TriggerMap :=
  conds.foldl (fun m cond => m.insertIfNew cond.1 cond.2) ∅

theorem getElem?_keepFirst (conds : List (String × RuleMatch × String)) (name : String) :
    (keepFirst conds)[name]? = conds.lookup name := by
  induction conds using List.reverseRecOn with
  | nil => simp [keepFirst]
  | append_singleton conds cond ih =>
    obtain ⟨key, cond⟩ := cond
    rw [keepFirst, List.foldl_concat, ← keepFirst, Std.ExtTreeMap.getElem?_insertIfNew,
      List.lookup_append, ← ih, List.lookup_cons, List.lookup_nil]
    by_cases heq : key = name
    · subst heq
      by_cases hmem : key ∈ keepFirst conds
      · simp [hmem]
      · simp [hmem]
    · have hne : (name == key) = false := by simpa using Ne.symm heq
      rw [hne]
      simp [heq]

variable {registered : StringSet} {draft draft' : Draft ρ} {node : XMLNode}

theorem SubNode.parentIds_eq (h : SubNode registered draft node draft') :
    draft'.rule.parentIds = draft.rule.parentIds ++ ifRules [node] := by
  cases h with
  | ifRule name read =>
    rw [ifRules, readNamed_of_eq name (by rw [read]; rfl)]
    simp
  | _ name => simp [ifRules, readNamed, name]

theorem SubNode.triggerGroup_eq (h : SubNode registered draft node draft') :
    draft'.rule.triggerGroup = (ifGroups [node]).getLastD draft.rule.triggerGroup := by
  cases h with
  | _ name => simp [ifGroups, readNamed, name]

theorem SubNode.triggerFields_eq (h : SubNode registered draft node draft') :
    draft'.rule.triggerFields = (entryConditions "if_field" [node]).foldl
      (fun m cond => m.insertIfNew cond.1 cond.2) draft.rule.triggerFields := by
  cases h with
  | ifField name read =>
    rw [entryConditions, readNamed_of_eq name (by rw [← name, parseEntry_id read]; rfl)]
    rfl
  | _ name => simp [entryConditions, readNamed, name]

theorem SubNode.triggerTraits_eq (h : SubNode registered draft node draft') :
    draft'.rule.triggerTraits = (entryConditions "if_trait" [node]).foldl
      (fun m cond => m.insertIfNew cond.1 cond.2) draft.rule.triggerTraits := by
  cases h with
  | ifTrait name read =>
    rw [entryConditions, readNamed_of_eq name (by rw [← name, parseEntry_id read]; rfl)]
    rfl
  | _ name => simp [entryConditions, readNamed, name]

theorem SubNode.ireg_eq (h : SubNode registered draft node draft') :
    draft'.ireg = draft.ireg ++ regexText [node] := by
  cases h with
  | regex name => simp [regexText, readNamed, name]
  | _ name => simp [regexText, readNamed, name]

theorem SubNode.activationGroup_eq (h : SubNode registered draft node draft') :
    draft'.rule.activationGroup =
      (activationGroups [node]).getLastD draft.rule.activationGroup := by
  cases h with
  | activationGroup name read =>
    rw [activationGroups, readNamed_of_eq name (by rw [parseActivationGroup_id read]; rfl)]
    rfl
  | _ name => simp [activationGroups, readNamed, name]

theorem SubNode.sameField_eq (h : SubNode registered draft node draft') :
    draft'.rule.sameField = (sameFields [node]).getLastD draft.rule.sameField := by
  cases h with
  | _ name => simp [sameFields, readNamed, name]

/-- What a rule has kept of the conditions of the child nodes read so far. -/
structure Kept (nodes : List XMLNode) (draft : Draft ρ) : Prop where
  parentIds : draft.rule.parentIds = ifRules nodes
  triggerGroup : draft.rule.triggerGroup = (ifGroups nodes).getLastD ""
  triggerFields : draft.rule.triggerFields = keepFirst (entryConditions "if_field" nodes)
  triggerTraits : draft.rule.triggerTraits = keepFirst (entryConditions "if_trait" nodes)
  ireg : draft.ireg = regexText nodes
  activationGroup : draft.rule.activationGroup = (activationGroups nodes).getLastD {}
  sameField : draft.rule.sameField = (sameFields nodes).getLastD ""

theorem getLastD_append {α : Type} (xs ys : List α) (a : α) :
    (xs ++ ys).getLastD a = ys.getLastD (xs.getLastD a) := by
  cases ys using List.reverseRecOn with
  | nil => simp
  | append_singleton ys y => simp [← List.append_assoc]

theorem Kept.step {nodes : List XMLNode} (hkept : Kept nodes draft)
    (h : SubNode registered draft node draft') : Kept (nodes ++ [node]) draft' := by
  constructor
  · rw [h.parentIds_eq, hkept.parentIds, ifRules, ifRules, ifRules, readNamed_append,
      List.flatten_append]
  · rw [h.triggerGroup_eq, hkept.triggerGroup, ifGroups, ifGroups, ifGroups, readNamed_append,
      getLastD_append]
  · rw [h.triggerFields_eq, hkept.triggerFields, keepFirst, keepFirst, ← List.foldl_append,
      entryConditions, entryConditions, entryConditions, readNamed_append]
  · rw [h.triggerTraits_eq, hkept.triggerTraits, keepFirst, keepFirst, ← List.foldl_append,
      entryConditions, entryConditions, entryConditions, readNamed_append]
  · rw [h.ireg_eq, hkept.ireg, regexText, regexText, regexText, readNamed_append,
      String.join_append]
  · rw [h.activationGroup_eq, hkept.activationGroup, activationGroups, activationGroups,
      activationGroups, readNamed_append, getLastD_append]
  · rw [h.sameField_eq, hkept.sameField, sameFields, sameFields, sameFields, readNamed_append,
      getLastD_append]

theorem parseRuleAttribute_kept {ex ex' : Rule ρ} {attr : String × String}
    (h : parseRuleAttribute ex attr = .ok ex') (hkept : Kept [] { rule := ex }) :
    Kept [] { rule := ex' } := by
  obtain ⟨hparents, hgroup, hfields, htraits, hireg, hact, hsame⟩ := hkept
  rw [parseRuleAttribute] at h
  split_ifs at h
  · obtain ⟨id, -, h⟩ := bind_eq_ok.mp h
    cases h
    exact ⟨hparents, hgroup, hfields, htraits, hireg, hact, hsame⟩
  · obtain ⟨priority, -, h⟩ := bind_eq_ok.mp h
    cases h
    exact ⟨hparents, hgroup, hfields, htraits, hireg, hact, hsame⟩
  · cases hbool : libsParseBool attr.2 with
    | error what => simp [hbool] at h
    | ok b =>
      simp only [hbool, Except.ok.injEq] at h
      subst h
      exact ⟨hparents, hgroup, hfields, htraits, hireg, hact, hsame⟩
  · cases h

/-- What a whole node leaves of its conditions. -/
theorem parseDraft_kept (h : parseDraft registered node = .ok draft) :
    Kept node.children draft := by
  obtain ⟨ex, hattrs, h⟩ := bind_eq_ok.mp h
  have hstart : Kept [] { rule := ({} : Rule ρ) } := ⟨rfl, rfl, rfl, rfl, rfl, rfl, rfl⟩
  have hex : Kept [] { rule := ex } :=
    foldlM_induction (P := fun _ ex => Kept [] { rule := ex })
      (fun _ _ _ _ hkept h => parseRuleAttribute_kept h hkept) [] hstart hattrs
  exact foldlM_induction (fun _ _ _ _ hkept h => hkept.step (parseSubNode_spec h)) [] hex h

end Text

section Conditions

/-- A condition that the node of a rule writes down. -/
inductive Condition where
  | ifRule (ids : List RuleId)
  | ifGroup (group : String)
  | ifField (cond : String × RuleMatch × String)
  | ifTrait (cond : String × RuleMatch × String)
  | regex (ireg : String)
  | activation (ag : ActivationGroup) (sameField : String)
  deriving DecidableEq

/-- The moment at which a rule is chosen: the event as it is then, the rule that the call has
chosen before, and the events with which the calls so far entered the group rules. -/
structure Moment where
  now : ℤ
  event : Event
  chosen : Option RuleId
  history : List (ℤ × Event)

/-- The events that an activation group counts, with a same field those that agree on it. -/
def Moment.counted (m : Moment) (ag : ActivationGroup) (sameField : String) : List (ℤ × Event) :=
  (window ag.time.toNat m.now (m.history.filter fun e => ag.groupName ∈ e.2.groups)).filter
    fun e => sameField = "" ∨
      m.event.fields[sameField]?.isSome ∧ e.2.fields[sameField]? = m.event.fields[sameField]?

/-- What a condition asks of the moment. -/
def Condition.Holds (host : Host ρ) (m : Moment) : Condition → Prop
  | .ifRule ids => ∃ id ∈ ids, m.chosen = some id
  | .ifGroup group => group = "!ALWAYS" ∨ group ∈ m.event.groups
  | .ifField cond => entryMatches host m.event.fields cond = .ok true
  | .ifTrait cond => entryMatches host m.event.traits cond = .ok true
  | .regex ireg => ∃ r, host.compile ireg = .ok r ∧ (host.search r m.event.toMatch).isSome
  | .activation ag sameField => ag.rate.toNat ≤ (m.counted ag sameField).length

/-- The conditions that the child nodes of a node make. What is nested in a child node is accepted
and never read, and counts for no condition here. An `if_rule` that is accepted lists at least one
rule. -/
def XMLNode.written (node : XMLNode) : List Condition :=
  (if ifRules node.children = [] then [] else [.ifRule (ifRules node.children)]) ++
    (ifGroups node.children).map .ifGroup ++
    (entryConditions "if_field" node.children).map .ifField ++
    (entryConditions "if_trait" node.children).map .ifTrait ++
    (if regexText node.children = "" then [] else [.regex (regexText node.children)]) ++
    (activationGroups node.children).map fun ag =>
      .activation ag ((sameFields node.children).getLastD "")

/-- The entries that differ from the first one for their name. -/
def otherEntries (conds : List (String × RuleMatch × String)) :
    List (String × RuleMatch × String) :=
  conds.filter fun cond => conds.lookup cond.1 ≠ some cond.2

/-- The conditions of a node that its rule is not asked for: parents beside an activation
group, other groups than the last and empty ones, and entries that come too late. -/
def XMLNode.dropped (node : XMLNode) : List Condition :=
  (if ifRules node.children = [] ∨ ((activationGroups node.children).getLastD {}).groupName = ""
    then [] else [.ifRule (ifRules node.children)]) ++
    ((ifGroups node.children).filter fun g =>
      g = "" ∨ (ifGroups node.children).getLast? ≠ some g).map .ifGroup ++
    (otherEntries (entryConditions "if_field" node.children)).map .ifField ++
    (otherEntries (entryConditions "if_trait" node.children)).map .ifTrait ++
    ((activationGroups node.children).filter fun ag =>
      ag.groupName = "" ∨ (activationGroups node.children).getLast? ≠ some ag).map fun ag =>
        .activation ag ((sameFields node.children).getLastD "")

theorem XMLNode.dropped_subset (node : XMLNode) : node.dropped ⊆ node.written := by
  intro cond hcond
  simp only [dropped, written, otherEntries, List.mem_append, List.mem_map, List.mem_filter]
    at hcond ⊢
  rcases hcond with (((h | ⟨g, ⟨hg, -⟩, rfl⟩) | ⟨e, ⟨he, -⟩, rfl⟩) | ⟨e, ⟨he, -⟩, rfl⟩) |
    ⟨ag, ⟨hag, -⟩, rfl⟩
  · left; left; left; left; left
    split_ifs at h with hdrop
    · simp at h
    · rw [if_neg (not_or.mp hdrop).1]
      exact h
  · exact .inl (.inl (.inl (.inl (.inr ⟨g, hg, rfl⟩))))
  · exact .inl (.inl (.inl (.inr ⟨e, he, rfl⟩)))
  · exact .inl (.inl (.inr ⟨e, he, rfl⟩))
  · exact .inr ⟨ag, hag, rfl⟩

end Conditions

section Enforced

variable {host : Host ρ} {cfg : ResearchConfig} {rules : RuleCfg ρ} {now : ℤ} {rl : Rule ρ}

/-- An entry that is the first one for its name is enforced. -/
theorem entryMatches_of_keepFirst {entries : StringMap}
    {conds : List (String × RuleMatch × String)}
    (h : entriesMatch host entries (keepFirst conds).toList = .ok true)
    {cond : String × RuleMatch × String} (hcond : cond ∈ conds) (hfirst : cond ∉ otherEntries conds) :
    entryMatches host entries cond = .ok true := by
  have hlookup : conds.lookup cond.1 = some cond.2 := by
    by_contra hne
    exact hfirst (List.mem_filter.mpr ⟨hcond, by simpa using hne⟩)
  rw [← getElem?_keepFirst] at hlookup
  exact entriesMatch_eq_true_iff.mp h cond (Std.ExtTreeMap.mem_toList_iff_getElem?_eq_some.mpr hlookup)

/-- The rule that acts have chosen last. -/
def lastChosen (acts : List (Act ρ)) : Option RuleId :=
  (acts.filterMap fun
    | .check _ _ => none
    | .fit _ rl _ => some rl.id).getLast?

theorem eventAfter_ruleId (ev : Event) (acts : List (Act ρ)) :
    (eventAfter ev acts).ruleId = (lastChosen acts).getD ev.ruleId := by
  induction acts using List.reverseRecOn with
  | nil => rfl
  | append_singleton acts a ih =>
    rw [eventAfter_append, eventAfter_cons, eventAfter_nil]
    cases a with
    | check e rl => simpa [Act.update, lastChosen] using ih
    | fit e rl c => simp [Act.update, lastChosen, updateEvent]

/-- A rule with parents that waits for no group and no other rule is checked after one of
its parents was chosen. -/
theorem exists_parent_chosen (hrules : rules.Valid host) {se : SourceEvent} {st : RulesState}
    {pre post : List (Act ρ)} {a : Act ρ}
    (htrace : (processLog host now se rules st).trace = pre ++ a :: post)
    (hgrouped : ¬ a.rule.Grouped) (hunless : ¬ a.rule.HasUnless) (hparents : a.rule.parentIds ≠ []) :
    ∃ id ∈ a.rule.parentIds, lastChosen pre = some id := by
  obtain ⟨start, hformat, hev, hplaced⟩ := processLog_act htrace
  have hstart : start.ruleId = 0 := (summary_formatLog hformat).ruleId
  have hid : a.event.ruleId = (lastChosen pre).getD 0 := by
    rw [hev, eventAfter_ruleId, hstart]
  have hchild : ∀ forest, RoseTree.views forest ⊆ rules.views → ChildOf forest a.event a.rule →
      ∃ id ∈ a.rule.parentIds, lastChosen pre = some id := by
    intro forest hsub hchild
    have hne : a.event.ruleId ≠ 0 := by
      obtain ⟨v, hv, -, heq⟩ := hchild
      rw [heq]
      exact (hrules.rule v (hsub hv)).id_ne
    rcases hchild.edge hrules hsub with ⟨hmem, -⟩ | ⟨hwaits, -⟩
    · refine ⟨a.event.ruleId, hmem, ?_⟩
      cases hchosen : lastChosen pre with
      | none => simp [hid, hchosen] at hne
      | some id => simp [hid, hchosen]
    · exact absurd hwaits hunless
  cases hplaced with
  | std root => exact absurd (hrules.stdRoot _ root).1 hparents
  | group entered root => exact absurd (hrules.groupRoot _ root) hgrouped
  | stdChild child => exact hchild _ (List.subset_append_left _ _) child
  | groupChild child => exact hchild _ (List.subset_append_right _ _) child

/-- Being chosen adds nothing to what a rule has stored. -/
theorem stored_replay_fits_sublist {ev : Event} {acts : List (Act ρ)}
    (h : ∀ a ∈ acts, a.rule.id = rl.id → ∃ c, a = .fit ev rl c) (st : RulesState) :
    (stored (replay host now st acts) rl.id).Sublist (stored st rl.id) := by
  induction acts generalizing st with
  | nil => exact List.Sublist.refl _
  | cons a acts ih =>
    obtain ⟨ha, hacts⟩ := List.forall_mem_cons.mp h
    rw [replay_cons]
    refine (ih hacts _).trans ?_
    by_cases hid : a.rule.id = rl.id
    · obtain ⟨c, rfl⟩ := ha hid
      exact stored_updateState_sublist st _
    · rw [stored_congr (Act.apply_getElem? host now hid st)]

/-- What a rule has stored is sorted, and among the events of its group. -/
structure Gathers (rl : Rule ρ) (history store : List (ℤ × Event)) : Prop where
  sorted : Sorted store
  subperm : store.Subperm (history.filter fun e => rl.Counts e.2)

theorem Gathers.sublist {history store store' : List (ℤ × Event)} (h : Gathers rl history store)
    (hsub : store'.Sublist store) : Gathers rl history store' :=
  ⟨h.sorted.sublist hsub, hsub.subperm.trans h.subperm⟩

theorem Gathers.mono {history store : List (ℤ × Event)} (h : Gathers rl history store)
    (more : List (ℤ × Event)) : Gathers rl (history ++ more) store := by
  refine ⟨h.sorted, h.subperm.trans ?_⟩
  rw [List.filter_append]
  exact (List.sublist_append_left _ _).subperm

theorem Gathers.check {history store : List (ℤ × Event)} (h : Gathers rl history store)
    (ev : Event) : Gathers rl (history ++ [(now, ev)])
      (expire rl.span now (if rl.Counts ev then arrive now ev store else store)) := by
  refine Gathers.sublist ?_ (expire_sublist _ _ _)
  by_cases hcounts : rl.Counts ev
  · rw [if_pos hcounts]
    refine ⟨h.sorted.arrive now ev, ?_⟩
    refine (arrive_perm now ev store).subperm.trans ?_
    rw [List.filter_append]
    have hlast : [(now, ev)].filter (fun e => rl.Counts e.2) = [(now, ev)] := by simp [hcounts]
    rw [hlast]
    have hcons := (List.subperm_cons (now, ev)).mpr h.subperm
    exact hcons.trans (List.perm_append_singleton _ _).symm.subperm
  · rw [if_neg hcounts]
    exact h.mono _

/-- In every run what a rule has stored is gathered from the events of its group. -/
theorem gathers_run (hgroup : GroupRule rules rl) (hrules : rules.Valid host)
    (steps : List Step) : Gathers rl (groupEvents host cfg rules steps)
      (stored (stateAfter host cfg rules steps) rl.id) := by
  induction steps using List.reverseRecOn with
  | nil => exact ⟨by simp [Sorted], by simp⟩
  | append_singleton steps step ih =>
    rw [stateAfter_concat]
    cases step with
    | pass now =>
      rw [groupEvents_pass, Step.run]
      simp only
      rw [stored_statePass]
      exact ih
    | call now se =>
      rw [Step.run]
      simp only
      rw [processLog_replay, groupEvents_call]
      rcases hgroup.call_cases hrules with ⟨hnone, -⟩ |
        ⟨ge, gs, pre, post, henter, htrace, hpre, hpost⟩
      · rw [stored_replay_of_ne hnone]
        exact ih.mono _
      · rw [htrace, replay_append, replay_cons, henter]
        refine Gathers.sublist ?_ (stored_replay_fits_sublist hpost _)
        rw [stored_check hgroup.activation hgroup.noUnless, stored_replay_of_ne hpre]
        exact ih.check ge

/-- A rule that is active has its rate reached by the events of the moment. -/
theorem Gathers.rate_le {m : Moment} {store : List (ℤ × Event)} (h : Gathers rl m.history store)
    (hwindow : window rl.span m.now store = store)
    (hactive : (activeBy m.event rl store).1 = true) :
    rl.activationGroup.rate.toNat ≤ (m.counted rl.activationGroup rl.sameField).length := by
  have hstore := h.subperm.filter fun e => decide (m.now ≤ e.1 + rl.span)
  rw [← window, hwindow, ← window] at hstore
  by_cases hsame : rl.sameField = ""
  · have hall : m.counted rl.activationGroup rl.sameField =
        window rl.span m.now (m.history.filter fun e => rl.Counts e.2) := by
      rw [Moment.counted, List.filter_eq_self.mpr (by simp [hsame])]
      rfl
    have hmany : rl.activationGroup.rate.toNat ≤ store.length := by
      by_contra hfew
      simp [activeBy, hfew] at hactive
    rw [hall]
    exact hmany.trans hstore.length_le
  · obtain ⟨value, hvalue, hmany⟩ := (activeBy_sameField hsame m.event store).mp hactive
    have hfield : m.counted rl.activationGroup rl.sameField = sameFieldEvents rl.sameField value
        (window rl.span m.now (m.history.filter fun e => rl.Counts e.2)) := by
      rw [Moment.counted, sameFieldEvents]
      apply List.filter_congr
      intro e _
      simp [hsame, hvalue]
    have hle := (hstore.filter fun e => decide (e.2.fields[rl.sameField]? = some value)).length_le
    rw [hfield]
    exact (hmany.trans (Nat.mod_le _ _)).trans hle

theorem rate_reached (hgroup : GroupRule rules rl) (hrules : rules.Valid host) {steps : List Step}
    {se : SourceEvent} {ev : Event} {before after : List (Act ρ)}
    (htrace : (processLog host now se rules (stateAfter host cfg rules steps)).trace =
      before ++ .check ev rl :: after)
    (hactive : (checkActivation now ev rl
      (replay host now (stateAfter host cfg rules steps) before)).2.isActive = true)
    (chosen : Option RuleId) :
    rl.activationGroup.rate.toNat ≤ (Moment.counted
      ⟨now, ev, chosen, groupEvents host cfg rules steps ++ [(now, ev)]⟩ rl.activationGroup
        rl.sameField).length := by
  obtain ⟨-, hbefore, -⟩ := hgroup.check_cases hrules htrace
  have hrate := (hgroup.valid hrules).rate hgroup.activation
  rw [(checkActivation_eq_activeBy hgroup.activation hrate ev _).1,
    stored_checkActivation hgroup.activation, stored_replay_of_ne hbefore] at hactive
  have hrun : Gathers rl (groupEvents host cfg rules steps)
      (stored (stateAfter host cfg rules steps) rl.id) := gathers_run hgroup hrules steps
  have hsorted : Sorted (if rl.Counts ev then
      arrive now ev (stored (stateAfter host cfg rules steps) rl.id)
      else stored (stateAfter host cfg rules steps) rl.id) := by
    split_ifs
    · exact hrun.sorted.arrive now ev
    · exact hrun.sorted
  refine Gathers.rate_le (hrun.check ev) ?_ hactive
  rw [expire_eq_window hsorted]
  exact window_window le_rfl _

/-- What a rule asks for, told from its node. -/
structure Asks (host : Host ρ) (node : XMLNode) (rl : Rule ρ) : Prop where
  parentIds : rl.parentIds = ifRules node.children
  triggerGroup : rl.triggerGroup = (ifGroups node.children).getLastD ""
  triggerFields : rl.triggerFields = keepFirst (entryConditions "if_field" node.children)
  triggerTraits : rl.triggerTraits = keepFirst (entryConditions "if_trait" node.children)
  reg : regexText node.children ≠ "" →
    ∃ r, rl.reg = some r ∧ host.compile (regexText node.children) = .ok r
  activationGroup : rl.activationGroup = (activationGroups node.children).getLastD {}
  sameField : rl.sameField = (sameFields node.children).getLastD ""
  noGroup : rl.parentIds ≠ [] → rl.triggerGroup = ""

theorem ReadFrom.asks {node : XMLNode} (h : ReadFrom host node rl) : Asks host node rl := by
  obtain ⟨-, rules, draft, hread, hchecked⟩ := h
  have hkept := parseDraft_kept hread
  have hpassed := checkDraft_passed hchecked
  have heq := hpassed.eq
  have hreg := hpassed.reg
  generalize rl.reg = reg at heq hreg
  subst heq
  refine ⟨hkept.parentIds, hkept.triggerGroup, hkept.triggerFields, hkept.triggerTraits, ?_,
    hkept.activationGroup, hkept.sameField, hpassed.noGroup⟩
  intro hne
  rw [compileDraft, hkept.ireg, if_neg hne] at hreg
  cases hcompile : compileRegex host ("rule " ++ toString draft.rule.id)
      (regexText node.children) draft.rule.regexFields with
  | error what => simp [hcompile, Except.map] at hreg
  | ok r =>
    simp only [hcompile, Except.map, Except.ok.injEq] at hreg
    exact ⟨r, hreg.symm, (compileRegex_markCount hcompile).1⟩

/-- An element that is not among the earlier and the excluded ones is the last. -/
theorem last_of_not_filtered {α : Type} [DecidableEq α] {p : α → Prop} [DecidablePred p]
    {xs : List α} {x : α} (h : x ∈ xs)
    (hnot : x ∉ xs.filter fun a => p a ∨ xs.getLast? ≠ some a) (d : α) :
    ¬ p x ∧ xs.getLastD d = x := by
  have hp : ¬ (p x ∨ xs.getLast? ≠ some x) :=
    fun hp => hnot (List.mem_filter.mpr ⟨h, decide_eq_true hp⟩)
  obtain ⟨hpx, hlast⟩ := not_or.mp hp
  rw [List.getLastD_eq_getLast?, not_not.mp hlast]
  exact ⟨hpx, rfl⟩

/-- Every rule of a configuration was read from a node of its files. -/
theorem exists_readFrom {roots : List XMLNode} (h : parseFiles host roots = .ok rules) :
    ∀ v ∈ rules.views, ∃ node ∈ roots.flatMap XMLNode.children, ReadFrom host node v.1 := by
  refine parseFiles_induction (P := fun nodes rules =>
    ∀ v ∈ rules.views, ∃ node ∈ nodes, ReadFrom host node v.1) ?_ ?_ h
  · simp [RuleCfg.views]
  · intro nodes rules node rules' hnodes hread v hv
    rcases hread.mem_views hv with hnode | ⟨w, hw, heq⟩
    · exact ⟨node, by simp, hnode⟩
    · obtain ⟨node', hmem, hnode⟩ := hnodes w hw
      exact ⟨node', List.mem_append_left _ hmem, heq ▸ hnode⟩

/-- A rule that is chosen has all its conditions met, except for those that are dropped. -/
theorem holds_of_not_dropped (hrules : rules.Valid host) {steps : List Step} {se : SourceEvent}
    {pre post : List (Act ρ)} {ev : Event} {c : Checked}
    (htrace : (processLog host now se rules (stateAfter host cfg rules steps)).trace =
      pre ++ .fit ev rl c :: post) {node : XMLNode} (hnode : Asks host node rl)
    {cond : Condition} (hwritten : cond ∈ node.written) (hkept : cond ∉ node.dropped) :
    cond.Holds host
      ⟨now, ev, lastChosen pre, groupEvents host cfg rules steps ++ [(now, ev)]⟩ := by
  obtain ⟨before, between, rfl, -, hcheck, hm⟩ := processLog_fit htrace
  obtain ⟨hunless, -, hactive, -, hconds⟩ := checkRule_matched (Prod.ext rfl hcheck) hm
  obtain ⟨hgroup, hfields, htraits, ms, hregex, -⟩ := checkConditions_eq_some.mp hconds
  rw [hnode.triggerFields] at hfields
  rw [hnode.triggerTraits] at htraits
  simp only [XMLNode.written, XMLNode.dropped, List.mem_append, List.mem_map, not_or] at hwritten hkept
  obtain ⟨⟨⟨⟨hkeptRule, hkeptGroup⟩, hkeptField⟩, hkeptTrait⟩, hkeptActivation⟩ := hkept
  rcases hwritten with ((((hmem | ⟨g, hg, rfl⟩) | ⟨e, he, rfl⟩) | ⟨e, he, rfl⟩) | hmem) |
    ⟨ag, hag, rfl⟩
  · by_cases hids : ifRules node.children = []
    · simp [hids] at hmem
    · rw [if_neg hids, List.mem_singleton] at hmem
      subst hmem
      by_cases hname : ((activationGroups node.children).getLastD {}).groupName = ""
      · have hparents : rl.parentIds ≠ [] := hnode.parentIds ▸ hids
        have hgrouped : ¬ rl.Grouped := by
          rw [Rule.Grouped, Rule.HasActivation, hnode.noGroup hparents, hnode.activationGroup, hname]
          simp
        obtain ⟨id, hid, hchosen⟩ := exists_parent_chosen hrules htrace hgrouped hunless hparents
        exact ⟨id, hnode.parentIds ▸ hid, hchosen⟩
      · rw [if_neg (not_or.mpr ⟨hids, hname⟩)] at hkeptRule
        exact absurd (List.mem_singleton_self _) hkeptRule
  · obtain ⟨hne, hlast⟩ := last_of_not_filtered (p := fun g => g = "") hg
      (fun hother => hkeptGroup ⟨g, hother, rfl⟩) ""
    have htrigger : rl.triggerGroup = g := hnode.triggerGroup.trans hlast
    have hmatches : g = "" ∨ g = "!ALWAYS" ∨ g ∈ ev.groups := by
      simpa [groupMatches, htrigger] using hgroup
    exact hmatches.resolve_left hne
  · exact entryMatches_of_keepFirst hfields he fun hother => hkeptField ⟨e, hother, rfl⟩
  · exact entryMatches_of_keepFirst htraits he fun hother => hkeptTrait ⟨e, hother, rfl⟩
  · by_cases htext : regexText node.children = ""
    · simp [htext] at hmem
    · rw [if_neg htext, List.mem_singleton] at hmem
      subst hmem
      obtain ⟨r, hreg, hcompile⟩ := hnode.reg htext
      refine ⟨r, hcompile, ?_⟩
      rw [regexMatches, hreg] at hregex
      exact Option.isSome_of_eq_some hregex
  · obtain ⟨hne, hlast⟩ := last_of_not_filtered (p := fun ag => ag.groupName = "") hag
      (fun hother => hkeptActivation ⟨ag, hother, rfl⟩) {}
    have hag' : rl.activationGroup = ag := hnode.activationGroup.trans hlast
    obtain ⟨-, -, -, hplaced⟩ := processLog_act htrace
    have hgroupRule : GroupRule rules rl :=
      ⟨hplaced.mem_views, by rw [Rule.HasActivation, hag']; exact hne, hunless⟩
    have hcheckTrace : (processLog host now se rules (stateAfter host cfg rules steps)).trace =
        before ++ .check ev rl :: (between ++ .fit ev rl c :: post) := by
      rw [htrace, List.append_assoc, List.cons_append]
    have hreached := rate_reached hgroupRule hrules hcheckTrace hactive
      (lastChosen (before ++ .check ev rl :: between))
    rw [hag', hnode.sameField] at hreached
    exact hreached

/-- No written condition is silently dropped, as long as the conditions that are dropped hold
by themselves. At every choice of a rule in every run, all the conditions that its node writes
down hold if and only if those hold that reading the node drops. -/
theorem written_hold_iff {roots : List XMLNode} (h : parseFiles host roots = .ok rules)
    {steps : List Step} {se : SourceEvent} {pre post : List (Act ρ)} {ev : Event} {c : Checked}
    (htrace : (processLog host now se rules (stateAfter host cfg rules steps)).trace =
      pre ++ .fit ev rl c :: post) :
    let m : Moment :=
      ⟨now, ev, lastChosen pre, groupEvents host cfg rules steps ++ [(now, ev)]⟩
    (∃ root ∈ roots, ∃ node ∈ root.children, ReadFrom host node rl) ∧
      ∀ node, ReadFrom host node rl →
        ((∀ cond ∈ node.written, cond.Holds host m) ↔ ∀ cond ∈ node.dropped, cond.Holds host m) := by
  intro m
  have hrules := parseFiles_valid h
  constructor
  · obtain ⟨-, -, -, hplaced⟩ := processLog_act htrace
    obtain ⟨v, hv, hroot⟩ := hplaced.mem_views
    obtain ⟨node, hnode, hread⟩ := exists_readFrom h v hv
    obtain ⟨root, hmem, hchild⟩ := List.mem_flatMap.mp hnode
    exact ⟨root, hmem, node, hchild, by rwa [hroot] at hread⟩
  · intro node hread
    constructor
    · intro hwritten cond hcond
      exact hwritten cond (node.dropped_subset hcond)
    · intro hdropped cond hcond
      by_cases hmem : cond ∈ node.dropped
      · exact hdropped cond hmem
      · exact holds_of_not_dropped hrules htrace hread.asks hcond hmem

end Enforced

section TwoHosts

/-- A rule that asks twice for the host name. -/
def twoHosts : XMLNode where
  name := "rule"
  attributes := [("id", "1"), ("priority", "1")]
  children := [{ name := "if_trait", attributes := [("name", "hostname")], value := "alpha" },
    { name := "if_trait", attributes := [("name", "hostname")], value := "beta" }]

def twoHostsFile : XMLNode where
  name := "rule_group"
  children := [twoHosts]

def fromAlpha : SourceEvent where
  message := "hello"
  hostname := "alpha"

/-- The rule is chosen for an event of the first host. -/
theorem twoHosts_fit : ∃ pre post ev rl c,
    (processLog plainHost 1 fromAlpha (plainRules [twoHostsFile]) ∅).trace =
      pre ++ .fit ev rl c :: post ∧ ev.traits["hostname"]? = some "alpha" := by
  have htrace : ((processLog plainHost 1 fromAlpha (plainRules [twoHostsFile]) ∅).trace.map
      fun a => (a.isCheck, a.event.traits["hostname"]?)) =
        [(true, some "alpha"), (false, some "alpha")] := by
    decide +kernel
  obtain ⟨x, more, heq, -, hmore⟩ := List.map_eq_cons_iff.mp htrace
  obtain ⟨y, rest, rfl, hy, -⟩ := List.map_eq_cons_iff.mp hmore
  cases y with
  | check ev rl => simp [Act.isCheck] at hy
  | fit ev rl c => exact ⟨[x], rest, ev, rl, c, heq, (Prod.ext_iff.mp hy).2⟩

theorem twoHosts_accepted :
    parseFiles plainHost [twoHostsFile] = .ok (plainRules [twoHostsFile]) :=
  plainRules_eq (by decide +kernel)

/-- The rule is chosen although the second of its conditions does not hold. -/
theorem twoHosts_not_hold : ∃ pre post ev rl c,
    (processLog plainHost 1 fromAlpha (plainRules [twoHostsFile])
        (stateAfter plainHost {} (plainRules [twoHostsFile]) [])).trace =
      pre ++ .fit ev rl c :: post ∧ ReadFrom plainHost twoHosts rl ∧
      .ifTrait ("hostname", .exact, "beta") ∈ twoHosts.written ∧
      ¬ (Condition.ifTrait ("hostname", .exact, "beta")).Holds plainHost
        ⟨1, ev, lastChosen pre, [(1, ev)]⟩ := by
  obtain ⟨pre, post, ev, rl, c, htrace, hname⟩ := twoHosts_fit
  obtain ⟨-, -, -, hplaced⟩ := processLog_act htrace
  obtain ⟨v, hv, hroot⟩ := hplaced.mem_views
  obtain ⟨node, hnode, hread⟩ := exists_readFrom twoHosts_accepted v hv
  have heq : node = twoHosts := by simpa [twoHostsFile] using hnode
  rw [hroot] at hread
  refine ⟨pre, post, ev, rl, c, htrace, heq ▸ hread, by decide +kernel, ?_⟩
  simp [Condition.Holds, entryMatches, hname]

theorem written_hold_iff_twoHosts : ∃ pre post ev rl c,
    (processLog plainHost 1 fromAlpha (plainRules [twoHostsFile])
        (stateAfter plainHost {} (plainRules [twoHostsFile]) [])).trace =
      pre ++ .fit ev rl c :: post ∧
      ∀ node, ReadFrom plainHost node rl →
        ((∀ cond ∈ node.written, cond.Holds plainHost ⟨1, ev, lastChosen pre, [(1, ev)]⟩) ↔
          ∀ cond ∈ node.dropped, cond.Holds plainHost ⟨1, ev, lastChosen pre, [(1, ev)]⟩) := by
  obtain ⟨pre, post, ev, rl, c, htrace, -⟩ := twoHosts_fit
  have hiff := @written_hold_iff _ plainHost {} _ _ _ _ twoHosts_accepted [] _ _ _ _ _ htrace
  exact ⟨pre, post, ev, rl, c, htrace, hiff.2⟩

/-- What is dropped of the rule is its second condition. -/
example : twoHosts.dropped = [.ifTrait ("hostname", .exact, "beta")] := by decide +kernel

end TwoHosts

end Ctguard
