import Ctguard.ParseRules

/-!
# What accepted rules are like

Reading is inverted step by step: what one child node changes in a rule, what the checks
of a rule let pass, and where a rule is put. From that come the facts that hold of every
configuration that files of rules can produce: each rule is valid in itself, children
stand below a parent or an unless rule of theirs, an id belongs to one rule only, and
the group rules have different ids.
-/

namespace Ctguard

variable {ρ : Type}

/-- Induction over a fold that may throw, with the entries read so far. -/
theorem foldlM_induction {α β : Type} {f : β → α → Except String β} {P : List α → β → Prop}
    (step : ∀ pre b a b', P pre b → f b a = .ok b' → P (pre ++ [a]) b') {xs : List α} (pre : List α)
    {b b' : β} (hb : P pre b) (h : xs.foldlM f b = .ok b') : P (pre ++ xs) b' := by
  induction xs generalizing pre b with
  | nil =>
    cases h
    simpa using hb
  | cons x xs ih =>
    rw [List.foldlM_cons, bind_eq_ok] at h
    obtain ⟨c, hc, hrest⟩ := h
    simpa using ih (pre ++ [x]) (step pre b x c hb hc) hrest

section Draft

/-- What one child node makes of a draft. -/
inductive SubNode (registered : StringSet) (draft : Draft ρ) (node : XMLNode) : Draft ρ → Prop
  | regex (name : node.name = "regex") :
      SubNode registered draft node { draft with ireg := draft.ireg ++ node.value }
  | fields (name : node.name = "fields") : SubNode registered draft node
      { draft with rule.regexFields := draft.rule.regexFields ++ splitList node.value }
  | description (name : node.name = "description") : SubNode registered draft node
      { draft with rule.description := draft.rule.description ++ node.value }
  | ifRule (name : node.name = "if_rule") {ids : List RuleId} (read : parseIfRule node = .ok ids) :
      SubNode registered draft node
        { draft with rule.parentIds := draft.rule.parentIds ++ ids }
  | unlessRule (name : node.name = "unless_rule") {ur : UnlessRule}
      (read : parseUnlessRule node = .ok ur) :
      SubNode registered draft node { draft with unlessId := ur.id, rule.unlessRule := ur }
  | group (name : node.name = "group") : SubNode registered draft node
      { draft with rule.groups := draft.rule.groups.insertMany (splitList node.value) }
  | ifGroup (name : node.name = "if_group") :
      SubNode registered draft node { draft with rule.triggerGroup := node.value }
  | ifField (name : node.name = "if_field") {cond : String × RuleMatch × String}
      (read : parseEntry node.name draft.rule.id node = .ok cond) : SubNode registered draft node
        { draft with rule.triggerFields := draft.rule.triggerFields.insertIfNew cond.1 cond.2 }
  | ifTrait (name : node.name = "if_trait") {cond : String × RuleMatch × String}
      (read : parseEntry node.name draft.rule.id node = .ok cond) : SubNode registered draft node
        { draft with rule.triggerTraits := draft.rule.triggerTraits.insertIfNew cond.1 cond.2 }
  | activationGroup (name : node.name = "activation_group") {ag : ActivationGroup}
      (read : parseActivationGroup draft.rule.id node = .ok ag) :
      SubNode registered draft node { draft with rule.activationGroup := ag }
  | sameField (name : node.name = "same_field") :
      SubNode registered draft node { draft with rule.sameField := node.value }
  | intervention (name : node.name = "intervention") {ir : InterventionRule}
      (read : parseIntervention registered draft.rule.id node = .ok ir) :
      SubNode registered draft node
        { draft with rule.interventions := draft.rule.interventions ++ [ir] }

theorem parseSubNode_spec {registered : StringSet} {draft draft' : Draft ρ} {node : XMLNode}
    (h : parseSubNode registered draft node = .ok draft') :
    SubNode registered draft node draft' := by
  simp only [parseSubNode] at h
  split at h
  case h_1 name =>
    obtain ⟨_, -, h⟩ := bind_eq_ok.mp h
    cases h
    exact .regex name
  case h_2 name =>
    obtain ⟨_, -, h⟩ := bind_eq_ok.mp h
    cases h
    exact .fields name
  case h_3 name =>
    obtain ⟨_, -, h⟩ := bind_eq_ok.mp h
    cases h
    exact .description name
  case h_4 name =>
    obtain ⟨_, -, h⟩ := bind_eq_ok.mp h
    obtain ⟨ids, hids, h⟩ := bind_eq_ok.mp h
    cases h
    exact .ifRule name hids
  case h_5 name =>
    obtain ⟨ur, hur, h⟩ := bind_eq_ok.mp h
    cases h
    exact .unlessRule name hur
  case h_6 name =>
    obtain ⟨_, -, h⟩ := bind_eq_ok.mp h
    cases h
    exact .group name
  case h_7 name =>
    obtain ⟨_, -, h⟩ := bind_eq_ok.mp h
    cases h
    exact .ifGroup name
  case h_8 name =>
    obtain ⟨cond, hcond, h⟩ := bind_eq_ok.mp h
    cases h
    exact .ifField name hcond
  case h_9 name =>
    obtain ⟨cond, hcond, h⟩ := bind_eq_ok.mp h
    cases h
    exact .ifTrait name hcond
  case h_10 name =>
    obtain ⟨ag, hag, h⟩ := bind_eq_ok.mp h
    cases h
    exact .activationGroup name hag
  case h_11 name =>
    obtain ⟨_, -, h⟩ := bind_eq_ok.mp h
    cases h
    exact .sameField name
  case h_12 name =>
    obtain ⟨ir, hir, h⟩ := bind_eq_ok.mp h
    cases h
    exact .intervention name hir
  case h_13 => cases h

/-- What holds of a draft at any time: an activation group has been checked. -/
structure Draft.Sound (draft : Draft ρ) : Prop where
  unlessId : draft.unlessId = draft.rule.unlessRule.id
  time : draft.rule.HasActivation → 1 ≤ draft.rule.activationGroup.time
  rate : draft.rule.HasActivation → 2 ≤ draft.rule.activationGroup.rate
  noReg : draft.rule.reg = none

theorem parseActivationGroup_sound {id : RuleId} {node : XMLNode} {ag : ActivationGroup}
    (h : parseActivationGroup id node = .ok ag) :
    1 ≤ ag.time ∧ 2 ≤ ag.rate ∧ ag.groupName = node.value := by
  simp only [parseActivationGroup, bind_eq_ok, reject_eq_ok] at h
  obtain ⟨ag', -, _, htime, _, -, _, hrate, h⟩ := h
  cases h
  refine ⟨?_, ?_, rfl⟩
  · show 1 ≤ ag'.time
    rw [UInt16.le_iff_toNat_le, UInt16.toNat_one]
    have hne : ag'.time.toNat ≠ 0 := fun h0 => htime (UInt16.toNat_inj.mp h0)
    omega
  · exact UInt16.not_lt.mp hrate

theorem SubNode.sound {registered : StringSet} {draft draft' : Draft ρ} {node : XMLNode}
    (h : SubNode registered draft node draft') (hs : draft.Sound) : draft'.Sound := by
  obtain ⟨hunless, htime, hrate, hreg⟩ := hs
  cases h with
  | unlessRule name read => exact ⟨rfl, htime, hrate, hreg⟩
  | activationGroup name read =>
    obtain ⟨htime', hrate', -⟩ := parseActivationGroup_sound read
    exact ⟨hunless, fun _ => htime', fun _ => hrate', hreg⟩
  | _ => exact ⟨hunless, htime, hrate, hreg⟩

theorem parseRuleAttribute_sound {ex ex' : Rule ρ} {attr : String × String}
    (h : parseRuleAttribute ex attr = .ok ex') (hs : Draft.Sound { rule := ex }) :
    Draft.Sound { rule := ex' } := by
  obtain ⟨hunless, htime, hrate, hreg⟩ := hs
  rw [parseRuleAttribute] at h
  split_ifs at h
  · obtain ⟨id, -, h⟩ := bind_eq_ok.mp h
    cases h
    exact ⟨hunless, htime, hrate, hreg⟩
  · obtain ⟨priority, -, h⟩ := bind_eq_ok.mp h
    cases h
    exact ⟨hunless, htime, hrate, hreg⟩
  · cases hbool : libsParseBool attr.2 with
    | error what => simp [hbool] at h
    | ok b =>
      simp only [hbool, Except.ok.injEq] at h
      subst h
      exact ⟨hunless, htime, hrate, hreg⟩
  · cases h

theorem parseDraft_sound {registered : StringSet} {node : XMLNode} {draft : Draft ρ}
    (h : parseDraft registered node = .ok draft) : draft.Sound := by
  obtain ⟨ex, hattrs, h⟩ := bind_eq_ok.mp h
  have hstart : Draft.Sound { rule := ({} : Rule ρ) } :=
    ⟨rfl, fun h => absurd rfl h, fun h => absurd rfl h, rfl⟩
  have hex : Draft.Sound { rule := ex } :=
    foldlM_induction (P := fun _ ex => Draft.Sound { rule := ex })
      (fun _ _ _ _ hs h => parseRuleAttribute_sound h hs) [] hstart hattrs
  exact foldlM_induction (P := fun _ draft => draft.Sound)
    (fun _ _ _ _ hs h => (parseSubNode_spec h).sound hs) [] hex h

end Draft

section Checks

variable {host : Host ρ}

/-- What the checks of a rule let pass. -/
structure Passed (host : Host ρ) (rules : RuleCfg ρ) (draft : Draft ρ) (ex : Rule ρ) : Prop where
  id_ne : draft.rule.id ≠ 0
  fresh : ¬ rules.hasRule draft.rule.id
  priority_ne : draft.rule.priority ≠ -1
  noGroup : draft.rule.parentIds ≠ [] → draft.rule.triggerGroup = ""
  activation : draft.rule.sameField ≠ "" → draft.rule.HasActivation
  unlessKnown : draft.rule.HasUnless → rules.hasRule draft.rule.unlessRule.id
  parents : draft.rule.HasUnless → draft.rule.parentIds ≠ []
  reg : compileDraft host draft = .ok ex.reg
  eq : ex = { draft.rule with reg := ex.reg }
  triggerGroup : draft.rule.triggerGroup ≠ "" →
    draft.rule.triggerGroup ∈ rules.groups ∨ draft.rule.triggerGroup = "!ALWAYS"
  activationGroup : draft.rule.HasActivation → draft.rule.activationGroup.groupName ∈ rules.groups
  groups : ∀ g ∈ draft.rule.groups, g ∈ rules.groups
  notParent : draft.rule.id ∉ draft.rule.parentIds

theorem checkDraft_passed {rules : RuleCfg ρ} {draft : Draft ρ} {ex : Rule ρ}
    (h : checkDraft host rules draft = .ok ex) : Passed host rules draft ex := by
  simp only [checkDraft, bind_eq_ok, reject_eq_ok] at h
  obtain ⟨_, hid, _, hfresh, _, hprio, _, hnoGroup, _, hact, _, hknown, _, hparents, reg, hreg, _,
    htrigger, _, hactGroup, _, hgroups, _, hself, h⟩ := h
  cases h
  refine ⟨hid, hfresh, hprio, ?_, ?_, ?_, ?_, hreg, rfl, ?_, ?_, ?_, hself⟩
  · intro hne
    by_contra htg
    exact hnoGroup ⟨hne, htg⟩
  · intro hne
    by_contra hna
    exact hact ⟨hne, hna⟩
  · intro hu
    by_contra hn
    exact hknown ⟨hu, hn⟩
  · intro hu hnil
    exact hparents ⟨hu, hnil⟩
  · intro hne
    by_contra hn
    exact htrigger ⟨hne, not_or.mp hn⟩
  · intro ha
    by_contra hn
    exact hactGroup ⟨ha, hn⟩
  · intro g hg
    rw [checkGroups] at hgroups
    cases hfind : draft.rule.groups.toList.find? (· ∉ rules.groups) with
    | some g' =>
      rw [hfind] at hgroups
      cases hgroups
    | none =>
      have hnone := List.find?_eq_none.mp hfind g (Std.ExtTreeSet.mem_toList.mpr hg)
      simpa using hnone

theorem compileRegex_markCount {owner ireg : String} {fields : List String} {r : ρ}
    (h : compileRegex host owner ireg fields = .ok r) :
    host.compile ireg = .ok r ∧ host.markCount r = fields.length := by
  simp only [compileRegex] at h
  cases hc : host.compile ireg with
  | error what => simp [hc] at h
  | ok r' =>
    simp only [hc] at h
    split_ifs at h with hcount
    cases h
    exact ⟨rfl, not_not.mp hcount⟩

/-- A rule that is consistent in itself. -/
structure Rule.Valid (host : Host ρ) (rl : Rule ρ) : Prop where
  id_ne : rl.id ≠ 0
  noGroup : rl.parentIds ≠ [] → rl.triggerGroup = ""
  activation : rl.sameField ≠ "" → rl.HasActivation
  parents : rl.HasUnless → rl.parentIds ≠ []
  markCount : ∀ r, rl.reg = some r → host.markCount r = rl.regexFields.length
  time : rl.HasActivation → 1 ≤ rl.activationGroup.time
  rate : rl.HasActivation → 2 ≤ rl.activationGroup.rate

theorem Passed.valid {rules : RuleCfg ρ} {draft : Draft ρ} {ex : Rule ρ}
    (h : Passed host rules draft ex) (hs : draft.Sound) : ex.Valid host := by
  have heq := h.eq
  have hreg := h.reg
  generalize ex.reg = reg at heq hreg
  subst heq
  refine ⟨h.id_ne, h.noGroup, h.activation, h.parents, ?_, hs.time, hs.rate⟩
  rintro r rfl
  rw [compileDraft] at hreg
  split_ifs at hreg
  · cases hreg
  · cases hc : compileRegex host ("rule " ++ toString draft.rule.id) draft.ireg
        draft.rule.regexFields with
    | error what => simp [hc, Except.map] at hreg
    | ok r' =>
      simp only [hc, Except.map, Except.ok.injEq, Option.some.injEq] at hreg
      subst hreg
      exact (compileRegex_markCount hc).2

end Checks

section Insertion

/-- The views of all rules, those of the standard rules first. -/
def RuleCfg.views (rules : RuleCfg ρ) : List (Rule ρ × List (Rule ρ)) :=
  RoseTree.views rules.stdRules ++ RoseTree.views rules.groupRules

theorem RuleCfg.hasRule_iff {rules : RuleCfg ρ} {id : RuleId} :
    rules.hasRule id ↔ ∃ v ∈ rules.views, v.1.id = id := by
  rw [hasRule, findRule, findRule, RoseTree.forestFind?_isSome_iff,
    RoseTree.forestFind?_isSome_iff, views]
  simp [or_and_right, exists_or]

/-- A child that is seen in a view has a view of its own. -/
theorem RuleCfg.exists_view_of_child {rules : RuleCfg ρ} {v : Rule ρ × List (Rule ρ)}
    (hv : v ∈ rules.views) {c : Rule ρ} (hc : c ∈ v.2) : ∃ w ∈ rules.views, w.1 = c := by
  rcases List.mem_append.mp hv with hv | hv
  · obtain ⟨w, hw, heq⟩ := RoseTree.exists_view_of_child hv hc
    exact ⟨w, List.mem_append_left _ hw, heq⟩
  · obtain ⟨w, hw, heq⟩ := RoseTree.exists_view_of_child hv hc
    exact ⟨w, List.mem_append_right _ hw, heq⟩

/-- One more leaf below the first view of an id; all else is as before. -/
structure Attached (ex : Rule ρ) (id : RuleId) (rules rules' : RuleCfg ρ) : Prop where
  views : ∃ pre a cs mid post, a.id = id ∧ (∀ v ∈ pre, v.1.id ≠ id) ∧
    rules.views = pre ++ (a, cs) :: (mid ++ post) ∧
    rules'.views = pre ++ (a, cs ++ [ex]) :: (mid ++ (ex, []) :: post)
  stdRoots : rules'.stdRules.map RoseTree.root = rules.stdRules.map RoseTree.root
  groupRoots : rules'.groupRules.map RoseTree.root = rules.groupRules.map RoseTree.root
  groups : rules'.groups = rules.groups
  formats : rules'.formats = rules.formats
  interventions : rules'.interventions = rules.interventions

theorem insertBelow_attached {ex : Rule ρ} {id : RuleId} {rules rules' : RuleCfg ρ}
    (h : insertBelow ex id rules = some rules') : Attached ex id rules rules' := by
  rw [insertBelow] at h
  cases hstd : RoseTree.forestAppendBelow (·.id == id) ex rules.stdRules with
  | some std =>
    simp only [hstd, Option.some.injEq] at h
    subst h
    obtain ⟨pre, a, cs, mid, post, ha, hpre, hviews, hviews', hroots⟩ :=
      RoseTree.views_forestAppendBelow hstd
    refine ⟨⟨pre, a, cs, mid, post ++ RoseTree.views rules.groupRules, by simpa using ha,
      by simpa using hpre, ?_, ?_⟩, hroots, rfl, rfl, rfl, rfl⟩
    · simp [RuleCfg.views, hviews]
    · simp [RuleCfg.views, hviews']
  | none =>
    simp only [hstd] at h
    obtain ⟨group, hgroup, rfl⟩ := Option.map_eq_some_iff.mp h
    obtain ⟨pre, a, cs, mid, post, ha, hpre, hviews, hviews', hroots⟩ :=
      RoseTree.views_forestAppendBelow hgroup
    have hskip := (RoseTree.forestAppendBelow_eq_none_iff _ _ _).mp hstd
    refine ⟨⟨RoseTree.views rules.stdRules ++ pre, a, cs, mid, post, by simpa using ha, ?_, ?_, ?_⟩,
      rfl, hroots, rfl, rfl, rfl⟩
    · intro v hv
      rcases List.mem_append.mp hv with hv | hv
      · simpa using hskip v hv
      · simpa using hpre v hv
    · simp [RuleCfg.views, hviews]
    · simp [RuleCfg.views, hviews']

/-- A view after an insertion is the one that grew, a new leaf or an old view. -/
theorem Attached.mem_views {ex : Rule ρ} {id : RuleId} {rules rules' : RuleCfg ρ}
    (h : Attached ex id rules rules') {v : Rule ρ × List (Rule ρ)} (hv : v ∈ rules'.views) :
    (∃ w ∈ rules.views, w.1.id = id ∧ v = (w.1, w.2 ++ [ex])) ∨ v = (ex, []) ∨
      v ∈ rules.views := by
  obtain ⟨pre, a, cs, mid, post, ha, -, hviews, hviews'⟩ := h.views
  rw [hviews'] at hv
  rw [hviews]
  simp only [List.mem_append, List.mem_cons] at hv ⊢
  rcases hv with hv | rfl | hv | rfl | hv
  · exact .inr (.inr (.inl hv))
  · exact .inl ⟨(a, cs), .inr (.inl rfl), ha, rfl⟩
  · exact .inr (.inr (.inr (.inr (.inl hv))))
  · exact .inr (.inl rfl)
  · exact .inr (.inr (.inr (.inr (.inr hv))))

/-- Insertions below several ids, one after the other. -/
inductive AttachedAll (ex : Rule ρ) : List RuleId → RuleCfg ρ → RuleCfg ρ → Prop
  | nil (rules : RuleCfg ρ) : AttachedAll ex [] rules rules
  | cons {id : RuleId} {ids : List RuleId} {rules middle rules' : RuleCfg ρ}
      (head : Attached ex id rules middle) (tail : AttachedAll ex ids middle rules') :
      AttachedAll ex (id :: ids) rules rules'

theorem insertParents_attachedAll {ex : Rule ρ} {ids : List RuleId} {rules rules' : RuleCfg ρ}
    (h : insertParents ex ids rules = .ok rules') : AttachedAll ex ids rules rules' := by
  induction ids generalizing rules with
  | nil =>
    cases h
    exact .nil _
  | cons id ids ih =>
    rw [insertParents] at h
    cases hbelow : insertBelow ex id rules with
    | none => simp [hbelow] at h
    | some middle =>
      simp only [hbelow] at h
      exact .cons (insertBelow_attached hbelow) (ih h)

theorem AttachedAll.mem_views {ex : Rule ρ} {ids : List RuleId} {rules rules' : RuleCfg ρ}
    (h : AttachedAll ex ids rules rules') {v : Rule ρ × List (Rule ρ)} (hv : v ∈ rules'.views) :
    v.1 = ex ∨ ∃ w ∈ rules.views, w.1 = v.1 := by
  induction h with
  | nil => exact .inr ⟨v, hv, rfl⟩
  | cons head tail ih =>
    rcases ih hv with heq | ⟨w, hw, heq⟩
    · exact .inl heq
    · rcases head.mem_views hw with ⟨u, hu, -, rfl⟩ | rfl | hw
      · exact .inr ⟨u, hu, heq⟩
      · exact .inl heq.symm
      · exact .inr ⟨w, hw, heq⟩

/-- What one node of a rule file makes of a configuration. -/
inductive NodeRead (host : Host ρ) (rules : RuleCfg ρ) (node : XMLNode) : RuleCfg ρ → Prop
  | group (name : node.name ≠ "rule") (g : String) :
      NodeRead host rules node { rules with groups := rules.groups.insert g }
  | intervention (name : node.name ≠ "rule") (i : String) :
      NodeRead host rules node { rules with interventions := rules.interventions.insert i }
  | format (name : node.name ≠ "rule") (f : Format ρ)
      (markCount : host.markCount f.reg = f.fields.length) :
      NodeRead host rules node { rules with formats := rules.formats ++ [f] }
  | rule (name : node.name = "rule") {draft : Draft ρ} {ex : Rule ρ} {middle rules' : RuleCfg ρ}
      (read : parseDraft rules.interventions node = .ok draft)
      (checked : checkDraft host rules draft = .ok ex) (normally : insertNormally ex rules = .ok middle)
      (waiting : insertUnless ex ex.unlessRule.id middle = .ok rules') :
      NodeRead host rules node rules'

theorem insertNormally_mem_views {rules rules' : RuleCfg ρ} {ex : Rule ρ}
    (h : insertNormally ex rules = .ok rules') {v : Rule ρ × List (Rule ρ)} (hv : v ∈ rules'.views) :
    v.1 = ex ∨ ∃ w ∈ rules.views, w.1 = v.1 := by
  have hroot : v ∈ rules.views ∨ v = (ex, []) → v.1 = ex ∨ ∃ w ∈ rules.views, w.1 = v.1 := by
    rintro (hv | rfl)
    · exact .inr ⟨v, hv, rfl⟩
    · exact .inl rfl
  rw [insertNormally] at h
  split_ifs at h
  · cases h
    exact hroot (by simpa [RuleCfg.views, or_assoc] using hv)
  · cases h
    have hmem : v ∈ rules.views ∨ v = (ex, []) := by
      simp only [RuleCfg.views, RoseTree.views_append, RoseTree.views_cons, List.map_nil,
        RoseTree.views_nil, List.append_nil, List.mem_append, List.mem_singleton] at hv ⊢
      tauto
    exact hroot hmem
  · exact (insertParents_attachedAll h).mem_views hv

/-- A rule that was read from a node. -/
def ReadFrom (host : Host ρ) (node : XMLNode) (rl : Rule ρ) : Prop :=
  node.name = "rule" ∧ ∃ (rules : RuleCfg ρ) (draft : Draft ρ),
    parseDraft rules.interventions node = .ok draft ∧ checkDraft host rules draft = .ok rl

/-- The roots of the views after a node are those before it and the rule that was read. -/
theorem NodeRead.mem_views {host : Host ρ} {rules rules' : RuleCfg ρ} {node : XMLNode}
    (h : NodeRead host rules node rules') {v : Rule ρ × List (Rule ρ)} (hv : v ∈ rules'.views) :
    ReadFrom host node v.1 ∨ ∃ w ∈ rules.views, w.1 = v.1 := by
  cases h with
  | group name g => exact .inr ⟨v, hv, rfl⟩
  | intervention name i => exact .inr ⟨v, hv, rfl⟩
  | format name f markCount => exact .inr ⟨v, hv, rfl⟩
  | @rule name draft ex middle _ read checked normally waiting =>
    have hread : ∀ {rl}, rl = ex → ReadFrom host node rl := by
      rintro _ rfl
      exact ⟨name, rules, draft, read, checked⟩
    have hmiddle := fun w => @insertNormally_mem_views _ rules middle ex normally w
    rw [insertUnless] at waiting
    split_ifs at waiting
    · cases waiting
      exact (hmiddle v hv).imp_left hread
    · cases hbelow : insertBelow ex ex.unlessRule.id middle with
      | none => simp [hbelow] at waiting
      | some last =>
        simp only [hbelow, Except.ok.injEq] at waiting
        subst waiting
        rcases (insertBelow_attached hbelow).mem_views hv with ⟨w, hw, -, rfl⟩ | rfl | hv
        · exact (hmiddle w hw).imp_left hread
        · exact .inl (hread rfl)
        · exact (hmiddle v hv).imp_left hread

theorem parseFormat_markCount {host : Host ρ} {node : XMLNode} {f : Format ρ}
    (h : parseFormat host node = .ok f) : host.markCount f.reg = f.fields.length := by
  obtain ⟨name, -, h⟩ := bind_eq_ok.mp h
  obtain ⟨⟨ireg, fields⟩, -, h⟩ := bind_eq_ok.mp h
  obtain ⟨_, -, h⟩ := bind_eq_ok.mp h
  obtain ⟨_, -, h⟩ := bind_eq_ok.mp h
  obtain ⟨reg, hreg, h⟩ := bind_eq_ok.mp h
  cases h
  exact (compileRegex_markCount hreg).2

theorem parseNode_read {host : Host ρ} {rules rules' : RuleCfg ρ} {node : XMLNode}
    (h : parseNode host rules node = .ok rules') : NodeRead host rules node rules' := by
  rw [parseNode] at h
  split at h
  case h_1 name =>
    obtain ⟨v, -, h⟩ := bind_eq_ok.mp h
    obtain ⟨_, -, h⟩ := bind_eq_ok.mp h
    cases h
    exact .group (by simp [name]) v
  case h_2 name =>
    obtain ⟨v, -, h⟩ := bind_eq_ok.mp h
    cases h
    exact .intervention (by simp [name]) v
  case h_3 name =>
    obtain ⟨f, hf, h⟩ := bind_eq_ok.mp h
    cases h
    exact .format (by simp [name]) f (parseFormat_markCount hf)
  case h_4 name =>
    obtain ⟨draft, hdraft, h⟩ := bind_eq_ok.mp h
    obtain ⟨ex, hex, h⟩ := bind_eq_ok.mp h
    obtain ⟨middle, hmiddle, h⟩ := bind_eq_ok.mp h
    have hunlessId : draft.unlessId = ex.unlessRule.id := by
      rw [(parseDraft_sound hdraft).unlessId, (checkDraft_passed hex).eq]
    exact .rule name hdraft hex hmiddle (hunlessId ▸ h)
  case h_5 => cases h

/-- Induction over the nodes of several files, with the nodes read so far. -/
theorem parseFiles_nodes {host : Host ρ} {P : List XMLNode → RuleCfg ρ → Prop} (start : P [] {})
    (step : ∀ pre rules node rules', P pre rules → parseNode host rules node = .ok rules' →
      P (pre ++ [node]) rules')
    {roots : List XMLNode} {rules : RuleCfg ρ} (h : parseFiles host roots = .ok rules) :
    P (roots.flatMap XMLNode.children) rules := by
  have hfile : ∀ pre rules root rules', P (pre.flatMap XMLNode.children) rules →
      parseRules host rules root = .ok rules' →
      P ((pre ++ [root]).flatMap XMLNode.children) rules' := by
    intro pre rules root rules' hP h
    obtain ⟨_, -, h⟩ := bind_eq_ok.mp h
    obtain ⟨_, -, h⟩ := bind_eq_ok.mp h
    rw [List.flatMap_append, List.flatMap_singleton]
    exact foldlM_induction step _ hP h
  exact foldlM_induction (P := fun pre rules => P (pre.flatMap XMLNode.children) rules)
    hfile [] start h

theorem parseFiles_induction {host : Host ρ} {P : List XMLNode → RuleCfg ρ → Prop}
    (start : P [] {})
    (step : ∀ pre rules node rules', P pre rules → NodeRead host rules node rules' →
      P (pre ++ [node]) rules')
    {roots : List XMLNode} {rules : RuleCfg ρ} (h : parseFiles host roots = .ok rules) :
    P (roots.flatMap XMLNode.children) rules :=
  parseFiles_nodes start (fun pre rules node rules' hP hread =>
    step pre rules node rules' hP (parseNode_read hread)) h

end Insertion

section Valid

/-- A configuration that files of rules can produce. -/
structure RuleCfg.Valid (host : Host ρ) (rules : RuleCfg ρ) : Prop where
  rule : ∀ v ∈ rules.views, v.1.Valid host
  edge : ∀ v ∈ rules.views, ∀ c ∈ v.2,
    v.1.id ∈ c.parentIds ∧ ¬ c.Grouped ∨ c.HasUnless ∧ c.unlessRule.id = v.1.id
  stdRoot : ∀ r ∈ rules.stdRules.map RoseTree.root, r.parentIds = [] ∧ ¬ r.Grouped
  groupRoot : ∀ r ∈ rules.groupRules.map RoseTree.root, r.Grouped
  same : ∀ v ∈ rules.views, ∀ w ∈ rules.views, v.1.id = w.1.id → v.1 = w.1
  groupIds : (rules.groupRules.map (·.root.id)).Nodup
  formats : ∀ f ∈ rules.formats, host.markCount f.reg = f.fields.length

variable {host : Host ρ}

theorem RuleCfg.valid_empty : ({} : RuleCfg ρ).Valid host := by
  constructor <;> simp [views]

/-- Insertion of a valid rule, which is the only one with its id, where it may stand. -/
theorem RuleCfg.Valid.attached {rules rules' : RuleCfg ρ} {ex : Rule ρ} {id : RuleId}
    (h : rules.Valid host) (hex : ex.Valid host)
    (hsame : ∀ v ∈ rules.views, v.1.id = ex.id → v.1 = ex)
    (hedge : id ∈ ex.parentIds ∧ ¬ ex.Grouped ∨ ex.HasUnless ∧ ex.unlessRule.id = id)
    (hins : Attached ex id rules rules') :
    rules'.Valid host ∧ ∀ v ∈ rules'.views, v.1.id = ex.id → v.1 = ex := by
  have hlabel : ∀ v ∈ rules'.views, v.1 = ex ∨ ∃ w ∈ rules.views, w.1 = v.1 := by
    intro v hv
    rcases hins.mem_views hv with ⟨w, hw, -, rfl⟩ | rfl | hv
    · exact .inr ⟨w, hw, rfl⟩
    · exact .inl rfl
    · exact .inr ⟨v, hv, rfl⟩
  have hsame' : ∀ v ∈ rules'.views, v.1.id = ex.id → v.1 = ex := by
    intro v hv hid
    rcases hlabel v hv with heq | ⟨w, hw, heq⟩
    · exact heq
    · exact heq ▸ hsame w hw (heq ▸ hid)
  refine ⟨⟨?_, ?_, ?_, ?_, ?_, ?_, ?_⟩, hsame'⟩
  · intro v hv
    rcases hlabel v hv with heq | ⟨w, hw, heq⟩
    · exact heq ▸ hex
    · exact heq ▸ h.rule w hw
  · intro v hv c hc
    rcases hins.mem_views hv with ⟨w, hw, hid, rfl⟩ | rfl | hv
    · rcases List.mem_append.mp hc with hc | hc
      · exact h.edge w hw c hc
      · rw [List.mem_singleton.mp hc, hid]
        exact hedge
    · simp at hc
    · exact h.edge v hv c hc
  · rw [hins.stdRoots]
    exact h.stdRoot
  · rw [hins.groupRoots]
    exact h.groupRoot
  · intro v hv w hw hid
    rcases hlabel v hv with hv' | ⟨v', hv', heqv⟩
    · rw [hv']
      exact (hsame' w hw (by rw [← hid, hv'])).symm
    · rcases hlabel w hw with hw' | ⟨w', hw', heqw⟩
      · rw [hw']
        exact hsame' v hv (by rw [hid, hw'])
      · rw [← heqv, ← heqw]
        exact h.same v' hv' w' hw' (by rw [heqv, heqw, hid])
  · have hids : rules'.groupRules.map (·.root.id) = rules.groupRules.map (·.root.id) := by
      have := congrArg (List.map Rule.id) hins.groupRoots
      simpa [Function.comp_def] using this
    rw [hids]
    exact h.groupIds
  · rw [hins.formats]
    exact h.formats

theorem RuleCfg.Valid.attachedAll {rules rules' : RuleCfg ρ} {ex : Rule ρ} {ids : List RuleId}
    (h : rules.Valid host) (hex : ex.Valid host)
    (hsame : ∀ v ∈ rules.views, v.1.id = ex.id → v.1 = ex)
    (hids : ∀ id ∈ ids, id ∈ ex.parentIds ∧ ¬ ex.Grouped)
    (hins : AttachedAll ex ids rules rules') :
    rules'.Valid host ∧ ∀ v ∈ rules'.views, v.1.id = ex.id → v.1 = ex := by
  induction hins with
  | nil => exact ⟨h, hsame⟩
  | cons head tail ih =>
    obtain ⟨hid, hids⟩ := List.forall_mem_cons.mp hids
    obtain ⟨hmiddle, hsame'⟩ := h.attached hex hsame (.inl hid) head
    exact ih hmiddle hsame' hids

/-- A new leaf at the end of the forests or between them. -/
theorem RuleCfg.Valid.leaf {rules middle : RuleCfg ρ} {ex : Rule ρ} (h : rules.Valid host)
    (hex : ex.Valid host) (hfresh : ∀ v ∈ rules.views, v.1.id ≠ ex.id)
    (hviews : ∀ v, v ∈ middle.views ↔ v ∈ rules.views ∨ v = (ex, []))
    (hstd : ∀ r ∈ middle.stdRules.map RoseTree.root, r.parentIds = [] ∧ ¬ r.Grouped)
    (hgroup : ∀ r ∈ middle.groupRules.map RoseTree.root, r.Grouped)
    (hids : (middle.groupRules.map (·.root.id)).Nodup) (hformats : middle.formats = rules.formats) :
    middle.Valid host ∧ ∀ v ∈ middle.views, v.1.id = ex.id → v.1 = ex := by
  refine ⟨⟨?_, ?_, hstd, hgroup, ?_, hids, by rw [hformats]; exact h.formats⟩, ?_⟩
  · intro v hv
    rcases (hviews v).mp hv with hv | rfl
    · exact h.rule v hv
    · exact hex
  · intro v hv c hc
    rcases (hviews v).mp hv with hv | rfl
    · exact h.edge v hv c hc
    · simp at hc
  · intro v hv w hw hid
    rcases (hviews v).mp hv with hv | rfl <;> rcases (hviews w).mp hw with hw | rfl
    · exact h.same v hv w hw hid
    · exact absurd hid (hfresh v hv)
    · exact absurd hid.symm (hfresh w hw)
    · rfl
  · intro v hv hid
    rcases (hviews v).mp hv with hv | rfl
    · exact absurd hid (hfresh v hv)
    · rfl

theorem RuleCfg.Valid.normally {rules middle : RuleCfg ρ} {ex : Rule ρ}
    (h : rules.Valid host) (hex : ex.Valid host) (hfresh : ∀ v ∈ rules.views, v.1.id ≠ ex.id)
    (hins : insertNormally ex rules = .ok middle) :
    middle.Valid host ∧ ∀ v ∈ middle.views, v.1.id = ex.id → v.1 = ex := by
  rw [insertNormally] at hins
  by_cases hgrouped : ex.Grouped
  · rw [if_pos hgrouped, Except.ok.injEq] at hins
    subst hins
    refine h.leaf hex hfresh (by simp [RuleCfg.views, or_assoc]) h.stdRoot ?_ ?_ rfl
    · intro r hr
      rw [List.map_append, List.mem_append] at hr
      rcases hr with hr | hr
      · exact h.groupRoot r hr
      · rw [List.mem_singleton.mp hr]
        exact hgrouped
    · rw [List.map_append, List.nodup_append]
      refine ⟨h.groupIds, by simp, ?_⟩
      intro id hid id' hid' heq
      obtain ⟨t, ht, rfl⟩ := List.mem_map.mp hid
      have hview : t.view ∈ rules.views := List.mem_append_right _
        (List.mem_map_of_mem (RoseTree.mem_forestNodes_of_mem ht))
      exact hfresh _ hview (heq.trans (List.mem_singleton.mp hid'))
  · rw [if_neg hgrouped] at hins
    by_cases hparents : ex.parentIds = []
    · rw [if_pos hparents, Except.ok.injEq] at hins
      subst hins
      refine h.leaf hex hfresh ?_ ?_ h.groupRoot h.groupIds rfl
      · intro v
        simp only [RuleCfg.views, RoseTree.views_append, RoseTree.views_cons, List.map_nil,
          RoseTree.views_nil, List.append_nil, List.mem_append, List.mem_singleton]
        tauto
      · intro r hr
        rw [List.map_append, List.mem_append] at hr
        rcases hr with hr | hr
        · exact h.stdRoot r hr
        · rw [List.mem_singleton.mp hr]
          exact ⟨hparents, hgrouped⟩
    · rw [if_neg hparents] at hins
      exact h.attachedAll hex (fun v hv hid => absurd hid (hfresh v hv))
        (fun id hid => ⟨hid, hgrouped⟩) (insertParents_attachedAll hins)

theorem RuleCfg.Valid.read {rules rules' : RuleCfg ρ} {node : XMLNode} (h : rules.Valid host)
    (hread : NodeRead host rules node rules') : rules'.Valid host := by
  cases hread with
  | group name g => exact ⟨h.rule, h.edge, h.stdRoot, h.groupRoot, h.same, h.groupIds, h.formats⟩
  | intervention name i =>
    exact ⟨h.rule, h.edge, h.stdRoot, h.groupRoot, h.same, h.groupIds, h.formats⟩
  | format name f markCount =>
    refine ⟨h.rule, h.edge, h.stdRoot, h.groupRoot, h.same, h.groupIds, ?_⟩
    intro g hg
    rcases List.mem_append.mp hg with hg | hg
    · exact h.formats g hg
    · rw [List.mem_singleton.mp hg]
      exact markCount
  | @rule name draft ex middle _ read checked normally waiting =>
    have passed := checkDraft_passed checked
    have hex := passed.valid (parseDraft_sound read)
    have hid : ex.id = draft.rule.id := by rw [passed.eq]
    have hfresh : ∀ v ∈ rules.views, v.1.id ≠ ex.id := by
      intro v hv heq
      exact passed.fresh (RuleCfg.hasRule_iff.mpr ⟨v, hv, heq.trans hid⟩)
    obtain ⟨hmiddle, hsame⟩ := h.normally hex hfresh normally
    rw [insertUnless] at waiting
    by_cases hunless : ex.unlessRule.id = 0
    · rw [if_pos hunless, Except.ok.injEq] at waiting
      exact waiting ▸ hmiddle
    · rw [if_neg hunless] at waiting
      cases hbelow : insertBelow ex ex.unlessRule.id middle with
      | none => simp [hbelow] at waiting
      | some last =>
        simp only [hbelow, Except.ok.injEq] at waiting
        subst waiting
        exact (hmiddle.attached hex hsame (.inr ⟨hunless, rfl⟩) (insertBelow_attached hbelow)).1

/-- Every configuration that files of rules produce is valid. -/
theorem parseFiles_valid {roots : List XMLNode} {rules : RuleCfg ρ}
    (h : parseFiles host roots = .ok rules) : rules.Valid host :=
  parseFiles_induction (P := fun _ rules => rules.Valid host) RuleCfg.valid_empty
    (fun _ _ _ _ h hread => h.read hread) h

end Valid

end Ctguard
