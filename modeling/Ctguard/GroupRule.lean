import Ctguard.AcceptedRules
import Ctguard.WalkTrace

/-!
# Where the rules of a valid configuration are checked

A rule that counts the events of a group and waits for no other rule stands at the top of
the group rules and nowhere else. So a call checks it at most once, with the event that
enters the group rules, and if the call returns, exactly once.
-/

namespace Ctguard

variable {ρ : Type} {host : Host ρ} {now : ℤ} {se : SourceEvent} {rules : RuleCfg ρ}
  {st : RulesState}

section Placement

/-- The rule of an act is the root of some view. -/
theorem Placed.mem_views {ev : Event} {rl : Rule ρ}
    (h : Placed host now se rules st ev rl) : ∃ v ∈ rules.views, v.1 = rl := by
  have hstd : ∀ v ∈ RoseTree.views rules.stdRules, v ∈ rules.views :=
    fun v hv => List.mem_append_left _ hv
  have hgroup : ∀ v ∈ RoseTree.views rules.groupRules, v ∈ rules.views :=
    fun v hv => List.mem_append_right _ hv
  cases h with
  | std root =>
    obtain ⟨t, ht, rfl⟩ := List.mem_map.mp root
    exact ⟨t.view, hstd _ (RoseTree.view_mem_views ht), rfl⟩
  | group entered root =>
    obtain ⟨t, ht, rfl⟩ := List.mem_map.mp root
    exact ⟨t.view, hgroup _ (RoseTree.view_mem_views ht), rfl⟩
  | stdChild child =>
    obtain ⟨v, hv, hc, -⟩ := child
    exact RuleCfg.exists_view_of_child (hstd v hv) hc
  | groupChild child =>
    obtain ⟨v, hv, hc, -⟩ := child
    exact RuleCfg.exists_view_of_child (hgroup v hv) hc

theorem ChildOf.edge {forest : RuleForest ρ} {ev : Event} {rl : Rule ρ}
    (h : ChildOf forest ev rl) (hrules : rules.Valid host)
    (hsub : RoseTree.views forest ⊆ rules.views) :
    ev.ruleId ∈ rl.parentIds ∧ ¬ rl.Grouped ∨ rl.HasUnless ∧ rl.unlessRule.id = ev.ruleId := by
  obtain ⟨v, hv, hc, hid⟩ := h
  rw [hid]
  exact hrules.edge v (hsub hv) rl hc

/-- Where a rule of a valid configuration is checked, and under which rule. -/
theorem Placed.cases {ev : Event} {rl : Rule ρ}
    (h : Placed host now se rules st ev rl) (hrules : rules.Valid host) :
    (rl.parentIds = [] ∧ ¬ rl.Grouped) ∨
      (rl.Grouped ∧ rl ∈ rules.groupRules.map RoseTree.root ∧
        ∃ gs, enterGroups host now se rules st = some (ev, gs)) ∨
      (ev.ruleId ∈ rl.parentIds ∧ ¬ rl.Grouped) ∨
      (rl.HasUnless ∧ rl.unlessRule.id = ev.ruleId) := by
  cases h with
  | std root => exact .inl (hrules.stdRoot rl root)
  | group entered root => exact .inr (.inl ⟨hrules.groupRoot rl root, root, _, entered⟩)
  | stdChild child =>
    exact .inr (.inr (child.edge hrules (List.subset_append_left _ _)))
  | groupChild child =>
    exact .inr (.inr (child.edge hrules (List.subset_append_right _ _)))

/-- The ids of the group rules differ, so no other rule of the level has this one. -/
theorem RuleCfg.Valid.other_root (hrules : rules.Valid host) {rl : Rule ρ}
    {left right rest : RuleForest ρ} {t : RoseTree (Rule ρ)}
    (hgroups : rules.groupRules = (left ++ t :: right) ++ rest) (hroot : t.root = rl)
    {r : RoseTree (Rule ρ)} (hr : r ∈ left ++ right) : r.root.id ≠ rl.id := by
  have hids : ((left ++ t :: right).map (·.root.id)).Nodup := by
    have hnodup := hrules.groupIds
    rw [hgroups, List.map_append] at hnodup
    exact (List.nodup_append.mp hnodup).1
  intro heq
  rw [List.map_append, List.map_cons, List.nodup_middle, List.nodup_cons] at hids
  apply hids.1
  rw [← List.map_append, hroot, ← heq]
  exact List.mem_map_of_mem hr

end Placement

/-- A rule of the configuration that counts the events of a group and does not wait. -/
structure GroupRule (rules : RuleCfg ρ) (rl : Rule ρ) : Prop where
  mem : ∃ v ∈ rules.views, v.1 = rl
  activation : rl.HasActivation
  noUnless : ¬ rl.HasUnless

namespace GroupRule

variable {rl : Rule ρ} (h : GroupRule rules rl) (hrules : rules.Valid host)

include h hrules

theorem valid : rl.Valid host := by
  obtain ⟨v, hv, rfl⟩ := h.mem
  exact hrules.rule v hv

theorem notMem_child {v : Rule ρ × List (Rule ρ)} (hv : v ∈ rules.views) : rl ∉ v.2 := by
  intro hmem
  rcases hrules.edge v hv rl hmem with ⟨-, hgrouped⟩ | ⟨hunless, -⟩
  · exact hgrouped (.inr h.activation)
  · exact h.noUnless hunless

theorem notMem_std : rl ∉ rules.stdRules.map RoseTree.root := by
  intro hmem
  exact (hrules.stdRoot rl hmem).2 (.inr h.activation)

theorem mem_group : rl ∈ rules.groupRules.map RoseTree.root := by
  obtain ⟨v, hv, rfl⟩ := h.mem
  rcases List.mem_append.mp hv with hv' | hv'
  · rcases RoseTree.root_or_child_of_view hv' with hroot | ⟨u, hu, hmem⟩
    · exact absurd hroot (h.notMem_std hrules)
    · exact absurd hmem (h.notMem_child hrules (List.mem_append_left _ hu))
  · rcases RoseTree.root_or_child_of_view hv' with hroot | ⟨u, hu, hmem⟩
    · exact hroot
    · exact absurd hmem (h.notMem_child hrules (List.mem_append_right _ hu))

theorem eq_of_id {rl' : Rule ρ} (hmem : ∃ v ∈ rules.views, v.1 = rl') (hid : rl'.id = rl.id) :
    rl' = rl := by
  obtain ⟨v, hv, rfl⟩ := hmem
  obtain ⟨w, hw, rfl⟩ := h.mem
  exact hrules.same v hv w hw hid

/-- Whatever a call does to the states of the rule, it does on entering the group rules. -/
theorem act_eq {pre post : List (Act ρ)} {a : Act ρ}
    (htrace : (processLog host now se rules st).trace = pre ++ a :: post)
    (hid : a.rule.id = rl.id) :
    a.rule = rl ∧ ∃ gs, enterGroups host now se rules st = some (a.event, gs) := by
  obtain ⟨-, -, -, hplaced⟩ := processLog_act htrace
  have heq := h.eq_of_id hrules hplaced.mem_views hid
  refine ⟨heq, ?_⟩
  rw [heq] at hplaced
  rcases hplaced.cases hrules with ⟨-, hgrouped⟩ | ⟨-, -, hentered⟩ | ⟨-, hgrouped⟩ | ⟨hunless, -⟩
  · exact absurd (.inr h.activation) hgrouped
  · exact hentered
  · exact absurd (.inr h.activation) hgrouped
  · exact absurd hunless h.noUnless

theorem stdTrace_id {ge : Event} {gs : RulesState}
    (henter : enterGroups host now se rules st = some (ge, gs)) {a : Act ρ}
    (ha : a ∈ stdTrace host now se rules st) : a.rule.id ≠ rl.id := by
  intro hid
  obtain ⟨start, -, -, -, hstd⟩ := enterGroups_eq_some henter
  rw [hstd] at ha
  obtain ⟨pre, post, htrace⟩ := List.append_of_mem ha
  have hwhole : (processLog host now se rules st).trace = pre ++ a ::
      (post ++ (checkTopRules host now ge rules.groupRules gs).trace) := by
    rw [processLog_of_enterGroups henter, hstd, htrace]
    simp
  have heq := (h.act_eq hrules hwhole hid).1
  obtain ⟨-, ⟨-, hroot⟩ | ⟨v, hv, hmem, -⟩⟩ := checkTopRules_act start rules.stdRules st htrace
  · exact h.notMem_std hrules (heq ▸ hroot)
  · exact h.notMem_child hrules (List.mem_append_left _ hv) (heq ▸ hmem)

/-- Below the first level the rule is not checked, but it may be chosen for its check on that
level. -/
theorem below_cases {ge : Event} {gs : RulesState}
    (henter : enterGroups host now se rules st = some (ge, gs)) {done : RuleForest ρ}
    {below : List (Act ρ)}
    (hcall : (processLog host now se rules st).trace = stdTrace host now se rules st ++
      (done.map (fun r => Act.check ge r.root) ++ below))
    (hbelow : ∀ a ∈ below, a.isCheck = true → ChildOf rules.groupRules a.event a.rule)
    {a : Act ρ} (ha : a ∈ below) (hid : a.rule.id = rl.id) :
    rl ∈ done.map RoseTree.root ∧ ∃ c, a = .fit ge rl c := by
  have hmem : a ∈ (processLog host now se rules st).trace := by
    rw [hcall]
    exact List.mem_append_right _ (List.mem_append_right _ ha)
  have hnotCheck : ∀ e, .check e rl ∉ below := by
    intro e he
    obtain ⟨v, hv, hchild, -⟩ := hbelow _ he rfl
    exact h.notMem_child hrules (List.mem_append_right _ hv) hchild
  obtain ⟨pre, post, hsplit⟩ := List.append_of_mem hmem
  obtain ⟨heq, gs', hentered⟩ := h.act_eq hrules hsplit hid
  rw [henter] at hentered
  cases a with
  | check ev rl' =>
    cases heq
    exact absurd ha (hnotCheck ev)
  | fit ev rl' c =>
    cases hentered
    cases heq
    refine ⟨?_, c, rfl⟩
    -- the check that it is chosen for is on the first level
    obtain ⟨before, between, rfl, -⟩ := processLog_fit hsplit
    have hcheck : Act.check ev rl' ∈ (processLog host now se rules st).trace := by
      rw [hsplit]
      simp
    rw [hcall, List.mem_append, List.mem_append, List.mem_map] at hcheck
    rcases hcheck with hstd | ⟨r, hr, heq⟩ | hbelow'
    · have hne : (Act.check ev rl').rule.id ≠ rl'.id := h.stdTrace_id hrules henter hstd
      exact absurd rfl hne
    · cases heq
      exact List.mem_map_of_mem hr
    · exact absurd hbelow' (hnotCheck ev)

/-- What a call does to the rule: one check with the event that enters the group rules, after
which the rule may be chosen; or nothing at all, and then the call does not return. -/
theorem call_cases :
    ((∀ a ∈ (processLog host now se rules st).trace, a.rule.id ≠ rl.id) ∧
        ∀ e, (processLog host now se rules st).result ≠ .ok e) ∨
      ∃ ge gs pre post, enterGroups host now se rules st = some (ge, gs) ∧
        (processLog host now se rules st).trace = pre ++ .check ge rl :: post ∧
        (∀ a ∈ pre, a.rule.id ≠ rl.id) ∧
        ∀ a ∈ post, a.rule.id = rl.id → ∃ c, a = .fit ge rl c := by
  cases henter : enterGroups host now se rules st with
  | none =>
    obtain ⟨-, f, hf⟩ := processLog_trace_of_not_enterGroups henter
    refine .inl ⟨?_, by simp [hf]⟩
    intro a ha hid
    obtain ⟨pre, post, htrace⟩ := List.append_of_mem ha
    obtain ⟨-, gs, hentered⟩ := h.act_eq hrules htrace hid
    rw [henter] at hentered
    cases hentered
  | some p =>
    obtain ⟨ge, gs⟩ := p
    obtain ⟨done, rest, below, hdone, htrace, hbelow, hall⟩ :=
      @checkTopRules_levels _ host now ge rules.groupRules gs
    have hcall := processLog_of_enterGroups henter
    rw [htrace] at hcall
    have htrace' := congrArg Outcome.trace hcall
    by_cases hchecked : rl ∈ done.map RoseTree.root
    · obtain ⟨t, ht, hroot⟩ := List.mem_map.mp hchecked
      obtain ⟨left, right, rfl⟩ := List.append_of_mem ht
      refine .inr ⟨ge, gs, stdTrace host now se rules st ++
        left.map (fun r => Act.check ge r.root),
        right.map (fun r => Act.check ge r.root) ++ below, rfl, ?_, ?_, ?_⟩
      · rw [hcall]
        simp [hroot]
      · intro a ha
        rcases List.mem_append.mp ha with ha | ha
        · exact h.stdTrace_id hrules henter ha
        · obtain ⟨r, hr, rfl⟩ := List.mem_map.mp ha
          exact hrules.other_root hdone hroot (List.mem_append_left _ hr)
      · intro a ha hid
        rcases List.mem_append.mp ha with ha | ha
        · obtain ⟨r, hr, rfl⟩ := List.mem_map.mp ha
          exact absurd hid (hrules.other_root hdone hroot (List.mem_append_right _ hr))
        · exact (h.below_cases hrules henter htrace' hbelow ha hid).2
    · refine .inl ⟨?_, ?_⟩
      · intro a ha hid
        rw [htrace'] at ha
        rcases List.mem_append.mp ha with ha | ha
        · exact h.stdTrace_id hrules henter ha hid
        · rcases List.mem_append.mp ha with ha | ha
          · obtain ⟨r, hr, rfl⟩ := List.mem_map.mp ha
            have hmem : r ∈ rules.groupRules := hdone ▸ List.mem_append_left _ hr
            have heq := h.eq_of_id hrules
              ⟨r.view, List.mem_append_right _ (RoseTree.view_mem_views hmem), rfl⟩ hid
            exact hchecked (heq ▸ List.mem_map_of_mem hr)
          · exact hchecked (h.below_cases hrules henter htrace' hbelow ha hid).1
      · intro e hres
        rw [hcall] at hres
        have hnil := hall e hres
        rw [hnil, List.append_nil] at hdone
        exact hchecked (hdone ▸ h.mem_group hrules)

/-- Around the check of the rule a call does nothing to it, except that it may choose it. -/
theorem check_cases {ev : Event} {pre post : List (Act ρ)}
    (htrace : (processLog host now se rules st).trace = pre ++ .check ev rl :: post) :
    (∃ gs, enterGroups host now se rules st = some (ev, gs)) ∧ (∀ a ∈ pre, a.rule.id ≠ rl.id) ∧
      ∀ a ∈ post, a.rule.id = rl.id → ∃ c, a = .fit ev rl c := by
  have hentered := (h.act_eq hrules htrace rfl).2
  refine ⟨hentered, ?_⟩
  rcases h.call_cases hrules with ⟨hnone, -⟩ | ⟨ge, gs, pre', post', henter, htrace', hpre', hpost'⟩
  · exact absurd rfl (hnone _ (htrace ▸ List.mem_append_right _ List.mem_cons_self))
  · obtain ⟨gs', hentered⟩ := hentered
    rw [henter] at hentered
    cases hentered
    rw [htrace] at htrace'
    rcases append_cons_eq_append_cons htrace' with ⟨mid, hmid⟩ | ⟨rfl, -, rfl⟩ | ⟨mid, hmid, -⟩
    · have hmem : Act.check ev rl ∈ post' := by
        rw [hmid, List.append_assoc, List.cons_append] at htrace'
        rw [← (List.cons.inj (List.append_cancel_left htrace')).2]
        exact List.mem_append_right _ List.mem_cons_self
      obtain ⟨c, hc⟩ := hpost' _ hmem rfl
      cases hc
    · exact ⟨hpre', hpost'⟩
    · have hmem : Act.check ev rl ∈ pre' := by
        rw [hmid]
        exact List.mem_append_right _ List.mem_cons_self
      exact absurd rfl (hpre' _ hmem)

/-- There is one check of the rule in a call. -/
theorem check_unique {ev ev' : Event} {pre pre' post post' : List (Act ρ)}
    (htrace : (processLog host now se rules st).trace = pre ++ .check ev rl :: post)
    (htrace' : (processLog host now se rules st).trace = pre' ++ .check ev' rl :: post') :
    pre' = pre ∧ ev' = ev ∧ post' = post := by
  obtain ⟨-, hpre, -⟩ := h.check_cases hrules htrace
  obtain ⟨-, hpre', -⟩ := h.check_cases hrules htrace'
  rw [htrace] at htrace'
  rcases append_cons_eq_append_cons htrace' with ⟨mid, rfl⟩ | ⟨rfl, heq, rfl⟩ | ⟨mid, rfl, -⟩
  · exact absurd rfl (hpre (.check ev' rl) (List.mem_append_right _ List.mem_cons_self))
  · cases heq
    exact ⟨rfl, rfl, rfl⟩
  · exact absurd rfl (hpre' (.check ev rl) (List.mem_append_right _ List.mem_cons_self))

/-- The rule is chosen for what its check in the call has found. -/
theorem fit_checked {ev e : Event} {c : Checked} {pre post : List (Act ρ)}
    (htrace : (processLog host now se rules st).trace = pre ++ .check ev rl :: post)
    (hfit : .fit e rl c ∈ post) :
    e = ev ∧ (checkRule host now ev rl (replay host now st pre)).2 = .ok c ∧ c.matched = true := by
  obtain ⟨mid, rest, rfl⟩ := List.append_of_mem hfit
  have hsplit : (processLog host now se rules st).trace =
      (pre ++ .check ev rl :: mid) ++ .fit e rl c :: rest := by
    rw [htrace]
    simp
  obtain ⟨before, between, hbefore, -, hcheck, hm⟩ := processLog_fit hsplit
  have hsplit' : (processLog host now se rules st).trace =
      before ++ .check e rl :: (between ++ .fit e rl c :: rest) := by
    rw [hsplit, hbefore]
    simp
  obtain ⟨rfl, rfl, -⟩ := h.check_unique hrules htrace hsplit'
  exact ⟨rfl, hcheck, hm⟩

end GroupRule

section Stateless

/-- No rule of the forest counts events or waits. -/
def Stateless (forest : RuleForest ρ) : Prop :=
  ∀ v ∈ RoseTree.views forest, ¬ v.1.HasActivation ∧ ¬ v.1.HasUnless

instance (forest : RuleForest ρ) : Decidable (Stateless forest) :=
  inferInstanceAs (Decidable (∀ v ∈ RoseTree.views forest, ¬ v.1.HasActivation ∧ ¬ v.1.HasUnless))

theorem Stateless.children {forest : RuleForest ρ} (h : Stateless forest)
    {t : RoseTree (Rule ρ)} (ht : t ∈ forest) : Stateless t.children := by
  intro v hv
  obtain ⟨s, hs, rfl⟩ := List.mem_map.mp hv
  apply h
  exact List.mem_map_of_mem
    (RoseTree.forestNodes_children_subset (RoseTree.mem_forestNodes_of_mem ht) hs)

theorem Stateless.root {forest : RuleForest ρ} (h : Stateless forest)
    {t : RoseTree (Rule ρ)} (ht : t ∈ forest) : ¬ t.root.HasActivation ∧ ¬ t.root.HasUnless :=
  h t.view (RoseTree.view_mem_views ht)

theorem checkRule_stateless {rl : Rule ρ} (h : ¬ rl.HasActivation ∧ ¬ rl.HasUnless) (ev : Event)
    (st : RulesState) :
    checkRule host now ev rl st = (st, (checkRule host now ev rl ∅).2) := by
  rw [checkRule, checkRule, if_neg h.2, if_neg h.2]
  simp only [checkActivation, if_neg h.1]

theorem checkSiblings_stateless {forest : RuleForest ρ}
    (h : ∀ t ∈ forest, ¬ t.root.HasActivation ∧ ¬ t.root.HasUnless) (ev : Event)
    (st : RulesState) :
    checkSiblings host now ev forest st =
      { checkSiblings host now ev forest ∅ with state := st } := by
  induction forest with
  | nil => rfl
  | cons t ts ih =>
    rw [List.forall_mem_cons] at h
    rw [checkSiblings, checkSiblings, checkRule_stateless h.1, checkRule_stateless h.1 ev ∅]
    cases (checkRule host now ev t.root ∅).2 with
    | error f => rfl
    | ok c => simp only [ih h.2]

theorem checkLevels_stateless {levels : ℕ} {forest : RuleForest ρ} (h : Stateless forest)
    (ev : Event) (st : RulesState) :
    checkLevels host now levels ev forest st =
      { checkLevels host now levels ev forest ∅ with state := st } := by
  induction levels generalizing ev forest st with
  | zero => rfl
  | succ levels ih =>
    rw [checkLevels, checkLevels, checkSiblings_stateless (fun t ht => h.root ht)]
    cases hres : (checkSiblings host now ev forest ∅).result with
    | error f => simp only [Outcome.andThen, hres]
    | ok matching =>
      have hstate : (checkSiblings host now ev forest ∅).state = ∅ := by
        rw [checkSiblings_stateless (fun t ht => h.root ht)]
      simp only [Outcome.andThen, hres, hstate]
      split
      · rfl
      · cases hpick : pickFit matching with
        | none => rfl
        | some fit =>
          have hmem := checkSiblings_mem hres (pickFit_mem hpick)
          have hstate (u : RulesState) :
              updateState u fit.1.root (updateEvent ev fit.1.root fit.2) = u :=
            if_neg fun hreset => (h.root hmem).1 hreset.1
          simp only [hstate, ih (h.children hmem) _ st]

/-- Standard rules without state give the same event in all states. -/
theorem enterGroups_stateless (h : Stateless rules.stdRules) (st : RulesState) :
    enterGroups host now se rules st =
      (enterGroups host now se rules ∅).map fun p => (p.1, st) := by
  rw [enterGroups, enterGroups]
  cases formatLog host (.ofSource host se) rules.formats with
  | error f => rfl
  | ok ev =>
    simp only [checkTopRules, checkLevels_stateless h ev st]
    cases (checkLevels host now (RoseTree.forestHeight rules.stdRules) ev rules.stdRules ∅).result
      <;> rfl

end Stateless
end Ctguard
