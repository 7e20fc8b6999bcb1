import Ctguard.RuleWalk

/-!
# Traces of walks

A trace tells all that a walk does to the states of the rules: replaying its acts gives
the states the walk leaves. Every act works on the event that the chosen rules before it
have made, on a rule of the first level or on a child of the last chosen rule, and a
rule is chosen only after its check on the same level.
-/

namespace Ctguard

variable {ρ : Type}

def Act.rule : Act ρ → Rule ρ
  | .check _ rl => rl
  | .fit _ rl _ => rl

def Act.event : Act ρ → Event
  | .check ev _ => ev
  | .fit ev _ _ => ev

@[simp] theorem Act.rule_check (ev : Event) (rl : Rule ρ) : (Act.check ev rl).rule = rl := rfl

@[simp] theorem Act.rule_fit (ev : Event) (rl : Rule ρ) (c : Checked) :
    (Act.fit ev rl c).rule = rl := rfl

@[simp] theorem Act.event_check (ev : Event) (rl : Rule ρ) : (Act.check ev rl).event = ev := rfl

@[simp] theorem Act.event_fit (ev : Event) (rl : Rule ρ) (c : Checked) :
    (Act.fit ev rl c).event = ev := rfl

/-- What an act makes of the event. -/
def Act.update (ev : Event) : Act ρ → Event
  | .check _ _ => ev
  | .fit _ rl c => updateEvent ev rl c

def eventAfter (ev : Event) (acts : List (Act ρ)) : Event := acts.foldl Act.update ev

@[simp] theorem eventAfter_nil (ev : Event) : eventAfter ev ([] : List (Act ρ)) = ev := rfl

@[simp] theorem eventAfter_cons (ev : Event) (a : Act ρ) (acts : List (Act ρ)) :
    eventAfter ev (a :: acts) = eventAfter (a.update ev) acts := rfl

@[simp] theorem eventAfter_append (ev : Event) (acts acts' : List (Act ρ)) :
    eventAfter ev (acts ++ acts') = eventAfter (eventAfter ev acts) acts' :=
  List.foldl_append

/-- Whether an act is a check. -/
def Act.isCheck : Act ρ → Bool
  | .check _ _ => true
  | .fit _ _ _ => false

theorem eventAfter_checks {acts : List (Act ρ)} (h : ∀ a ∈ acts, a.isCheck = true) (ev : Event) :
    eventAfter ev acts = ev := by
  induction acts with
  | nil => rfl
  | cons a acts ih =>
    obtain ⟨ha, hacts⟩ := List.forall_mem_cons.mp h
    cases a with
    | check _ _ => exact ih hacts
    | fit _ _ _ => cases ha

section Replay

variable (host : Host ρ) (now : ℤ)

/-- What an act does to the states. -/
def Act.apply (st : RulesState) : Act ρ → RulesState
  | .check ev rl => (checkRule host now ev rl st).1
  | .fit ev rl c => updateState st rl (updateEvent ev rl c)

def replay (st : RulesState) (acts : List (Act ρ)) : RulesState := acts.foldl (Act.apply host now) st

@[simp] theorem replay_nil (st : RulesState) : replay host now st [] = st := rfl

@[simp] theorem replay_cons (st : RulesState) (a : Act ρ) (acts : List (Act ρ)) :
    replay host now st (a :: acts) = replay host now (a.apply host now st) acts := rfl

@[simp] theorem replay_append (st : RulesState) (acts acts' : List (Act ρ)) :
    replay host now st (acts ++ acts') = replay host now (replay host now st acts) acts' :=
  List.foldl_append

end Replay

section Frame

variable (host : Host ρ) (now : ℤ)

theorem checkUnless_getElem? {ev : Event} {rl : Rule ρ} {st : RulesState} {k : RuleId}
    (h : rl.id ≠ k) : (checkUnless now ev rl st).1[k]? = st[k]? := by
  rw [checkUnless]
  split_ifs <;> simp [Std.ExtTreeMap.getElem?_insert, h]

theorem checkActivation_getElem? {ev : Event} {rl : Rule ρ} {st : RulesState} {k : RuleId}
    (h : rl.id ≠ k) : (checkActivation now ev rl st).1[k]? = st[k]? := by
  rw [checkActivation]
  split_ifs with hact
  · cases st[rl.id]? with
    | none =>
      simp only
      split_ifs <;> simp [Std.ExtTreeMap.getElem?_insert, h]
    | some state => simp [Std.ExtTreeMap.getElem?_insert, h]
  · rfl

theorem updateState_getElem? {ev : Event} {rl : Rule ρ} {st : RulesState} {k : RuleId}
    (h : rl.id ≠ k) : (updateState st rl ev)[k]? = st[k]? := by
  rw [updateState]
  by_cases hreset : rl.HasActivation ∧ rl.activationGroup.reset = true
  · rw [if_pos hreset]
    cases st[rl.id]? with
    | none => rfl
    | some state =>
      by_cases hsame : rl.sameField = ""
      · simp [hsame, Std.ExtTreeMap.getElem?_insert, h]
      · cases hvalue : ev.fields[rl.sameField]? with
        | none => simp [hsame]
        | some value => simp [hsame, Std.ExtTreeMap.getElem?_insert, h]
  · rw [if_neg hreset]

/-- An act leaves the states of other rules alone. -/
theorem Act.apply_getElem? {a : Act ρ} {k : RuleId} (h : a.rule.id ≠ k) (st : RulesState) :
    (a.apply host now st)[k]? = st[k]? := by
  cases a with
  | check ev rl =>
    rw [Act.apply, checkRule]
    split_ifs with hunless
    · exact checkUnless_getElem? now h
    · exact checkActivation_getElem? now h
  | fit ev rl c => exact updateState_getElem? h

theorem replay_getElem? {acts : List (Act ρ)} {k : RuleId} (h : ∀ a ∈ acts, a.rule.id ≠ k)
    (st : RulesState) : (replay host now st acts)[k]? = st[k]? := by
  induction acts generalizing st with
  | nil => rfl
  | cons a acts ih =>
    obtain ⟨ha, hacts⟩ := List.forall_mem_cons.mp h
    rw [replay_cons, ih hacts, Act.apply_getElem? host now ha]

end Frame

section Level

variable {host : Host ρ} {now : ℤ} {ev : Event}

/-- The checks of a level go through its rules in order, maybe not to the end. -/
theorem checkSiblings_trace (rules : RuleForest ρ) (st : RulesState) :
    ∃ done rest, rules = done ++ rest ∧
      (checkSiblings host now ev rules st).trace =
        done.map (fun r => Act.check ev r.root) ∧
      ∀ ms, (checkSiblings host now ev rules st).result = .ok ms → rest = [] := by
  induction rules generalizing st with
  | nil => exact ⟨[], [], rfl, rfl, fun _ _ => rfl⟩
  | cons r rs ih =>
    rw [checkSiblings]
    rcases hr : checkRule host now ev r.root st with ⟨st', f | c⟩
    · exact ⟨[r], rs, rfl, rfl, fun ms h => by cases h⟩
    · obtain ⟨done, rest, hrules, htrace, hall⟩ := ih st'
      refine ⟨r :: done, rest, by simp [hrules], by simp [htrace], ?_⟩
      intro ms h
      cases hres : (checkSiblings host now ev rs st').result with
      | error f => simp [hres, Except.map] at h
      | ok more => exact hall more hres

theorem checkSiblings_checks {rules : RuleForest ρ} {st : RulesState} {a : Act ρ}
    (h : a ∈ (checkSiblings host now ev rules st).trace) :
    ∃ r ∈ rules, a = .check ev r.root := by
  obtain ⟨done, rest, hrules, htrace, -⟩ := @checkSiblings_trace _ host now ev rules st
  rw [htrace, List.mem_map] at h
  obtain ⟨r, hr, rfl⟩ := h
  exact ⟨r, hrules ▸ List.mem_append_left _ hr, rfl⟩

theorem checkSiblings_replay (rules : RuleForest ρ) (st : RulesState) :
    (checkSiblings host now ev rules st).state =
      replay host now st (checkSiblings host now ev rules st).trace := by
  induction rules generalizing st with
  | nil => rfl
  | cons r rs ih =>
    rw [checkSiblings]
    rcases hr : checkRule host now ev r.root st with ⟨st', f | c⟩
    · simp [Act.apply, hr]
    · simp [Act.apply, hr, ih]

/-- A candidate was checked on its level, under the states that the checks before left. -/
theorem checkSiblings_candidate {rules : RuleForest ρ} {st : RulesState}
    {ms : List (Candidate ρ)} (h : (checkSiblings host now ev rules st).result = .ok ms)
    {c : Candidate ρ} (hc : c ∈ ms) :
    ∃ pre post, (checkSiblings host now ev rules st).trace =
        pre ++ .check ev c.1.root :: post ∧
      (checkRule host now ev c.1.root (replay host now st pre)).2 = .ok c.2 ∧
      c.2.matched = true := by
  induction rules generalizing st ms with
  | nil =>
    cases h
    simp at hc
  | cons r rs ih =>
    rw [checkSiblings] at h ⊢
    rcases hr : checkRule host now ev r.root st with ⟨st', f | checked⟩
    · simp [hr] at h
    · simp only [hr] at h ⊢
      cases hres : (checkSiblings host now ev rs st').result with
      | error f => simp [hres, Except.map] at h
      | ok more =>
        simp only [hres, Except.map, Except.ok.injEq] at h
        have hcases : c = (r, checked) ∧ checked.matched = true ∨ c ∈ more := by
          cases hm : checked.matched <;> simp [hm] at h <;> subst h <;> simp_all
        rcases hcases with ⟨rfl, hm⟩ | hmore
        · exact ⟨[], _, rfl, by simp [hr], hm⟩
        · obtain ⟨pre, post, htrace, hcheck, hm⟩ := ih hres hmore
          refine ⟨.check ev r.root :: pre, post, by simp [htrace], ?_, hm⟩
          simpa [Act.apply, hr] using hcheck

/-- A level that faults does so in its last check. -/
theorem checkSiblings_error {rules : RuleForest ρ} {st : RulesState} {f : Fault}
    (h : (checkSiblings host now ev rules st).result = .error f) :
    ∃ pre rl, (checkSiblings host now ev rules st).trace = pre ++ [.check ev rl] ∧
      (checkRule host now ev rl (replay host now st pre)).2 = .error f := by
  induction rules generalizing st with
  | nil => cases h
  | cons r rs ih =>
    rw [checkSiblings] at h ⊢
    rcases hr : checkRule host now ev r.root st with ⟨st', g | checked⟩
    · simp only [hr, Except.error.injEq] at h ⊢
      subst h
      exact ⟨[], r.root, rfl, by simp [hr]⟩
    · simp only [hr] at h ⊢
      cases hres : (checkSiblings host now ev rs st').result with
      | ok more => simp [hres, Except.map] at h
      | error g =>
        simp only [hres, Except.map, Except.error.injEq] at h
        subst h
        obtain ⟨pre, rl, htrace, hcheck⟩ := ih hres
        refine ⟨.check ev r.root :: pre, rl, by simp [htrace], ?_⟩
        simpa [Act.apply, hr] using hcheck

end Level

section Walk

variable {host : Host ρ} {now : ℤ}

theorem checkTopRules_replay (ev : Event) (rules : RuleForest ρ) (st : RulesState) :
    (checkTopRules host now ev rules st).state =
      replay host now st (checkTopRules host now ev rules st).trace := by
  refine checkTopRules_induction (P := fun _ _ st o => o.state = replay host now st o.trace)
    ?_ ?_ ?_ ?_ ev rules st
  · intro ev rules st f _
    exact checkSiblings_replay rules st
  · intro ev rules st _
    exact checkSiblings_replay rules st
  · intro ev rules st ms _ _ _
    exact checkSiblings_replay rules st
  · intro ev rules st ms fit checked _ _ ev' st' below ih
    rw [replay_append, ← checkSiblings_replay, replay_cons]
    exact ih

/-- Where an entry of a list lies that consists of a list, an entry and a list. -/
theorem append_cons_eq_append_cons {α : Type} {xs ys pre post : List α} {x a : α}
    (h : xs ++ x :: ys = pre ++ a :: post) :
    (∃ post', xs = pre ++ a :: post') ∨ (pre = xs ∧ a = x ∧ post = ys) ∨
      ∃ pre', pre = xs ++ x :: pre' ∧ ys = pre' ++ a :: post := by
  rcases List.append_eq_append_iff.mp h with ⟨zs, hpre, hcons⟩ | ⟨zs, hxs, hcons⟩
  · cases zs with
    | nil =>
      rw [List.nil_append, List.cons.injEq] at hcons
      exact .inr (.inl ⟨by simpa using hpre, hcons.1.symm, hcons.2.symm⟩)
    | cons z zs =>
      rw [List.cons_append, List.cons.injEq] at hcons
      obtain ⟨rfl, rfl⟩ := hcons
      exact .inr (.inr ⟨zs, hpre, rfl⟩)
  · cases zs with
    | nil =>
      rw [List.nil_append, List.cons.injEq] at hcons
      exact .inr (.inl ⟨by simpa using hxs.symm, hcons.1, hcons.2⟩)
    | cons z zs =>
      rw [List.cons_append, List.cons.injEq] at hcons
      obtain ⟨rfl, rfl⟩ := hcons
      exact .inl ⟨zs, hxs⟩

theorem append_eq_append_cons {α : Type} {xs ys pre post : List α} {a : α}
    (h : xs ++ ys = pre ++ a :: post) :
    (∃ post', xs = pre ++ a :: post') ∨ ∃ pre', pre = xs ++ pre' ∧ ys = pre' ++ a :: post := by
  rcases List.append_eq_append_iff.mp h with ⟨zs, hpre, hys⟩ | ⟨zs, hxs, hcons⟩
  · exact .inr ⟨zs, hpre, hys⟩
  · cases zs with
    | nil => exact .inr ⟨[], by simpa using hxs.symm, by simpa using hcons.symm⟩
    | cons z zs =>
      rw [List.cons_append, List.cons.injEq] at hcons
      obtain ⟨rfl, -⟩ := hcons
      exact .inl ⟨zs, hxs⟩

theorem checkSiblings_isCheck {ev : Event} {rules : RuleForest ρ} {st : RulesState} :
    ∀ a ∈ (checkSiblings host now ev rules st).trace, a.isCheck = true := by
  intro a ha
  obtain ⟨r, -, rfl⟩ := checkSiblings_checks ha
  rfl

/-- The event that a walk returns is the one its chosen rules make. -/
theorem checkTopRules_result (ev : Event) (rules : RuleForest ρ) (st : RulesState) {e : Event}
    (h : (checkTopRules host now ev rules st).result = .ok e) :
    e = eventAfter ev (checkTopRules host now ev rules st).trace := by
  refine checkTopRules_induction (P := fun ev _ _ o => o.result = .ok e →
    e = eventAfter ev o.trace) ?_ ?_ ?_ ?_ ev rules st h
  · intro ev rules st f _ h
    cases h
  · intro ev rules st _ h
    cases h
    exact (eventAfter_checks checkSiblings_isCheck e).symm
  · intro ev rules st ms _ _ _ h
    cases h
  · intro ev rules st ms fit checked _ _ ev' st' below ih h
    rw [eventAfter_append, eventAfter_checks checkSiblings_isCheck]
    exact ih h

/-- A rule with a view of the forest in which it is a child of the rule chosen last. -/
def ChildOf (rules : RuleForest ρ) (ev : Event) (rl : Rule ρ) : Prop :=
  ∃ v ∈ RoseTree.views rules, rl ∈ v.2 ∧ ev.ruleId = v.1.id

theorem ChildOf.mono {rules rules' : RuleForest ρ} {ev : Event} {rl : Rule ρ}
    (h : RoseTree.forestNodes rules ⊆ RoseTree.forestNodes rules') (hc : ChildOf rules ev rl) :
    ChildOf rules' ev rl := by
  obtain ⟨v, hv, hrl, hid⟩ := hc
  exact ⟨v, List.map_subset _ h hv, hrl, hid⟩

/-- Every act works on the event of its level, and on a rule of that level. -/
theorem checkTopRules_act (ev : Event) (rules : RuleForest ρ) (st : RulesState)
    {pre post : List (Act ρ)} {a : Act ρ}
    (h : (checkTopRules host now ev rules st).trace = pre ++ a :: post) :
    a.event = eventAfter ev pre ∧
      (a.event = ev ∧ a.rule ∈ rules.map RoseTree.root ∨ ChildOf rules a.event a.rule) := by
  have hlevel : ∀ {ev : Event} {rules : RuleForest ρ} {st : RulesState}
      {pre post : List (Act ρ)} {a : Act ρ},
      (checkSiblings host now ev rules st).trace = pre ++ a :: post →
      a.event = eventAfter ev pre ∧ a.event = ev ∧ a.rule ∈ rules.map RoseTree.root := by
    intro ev rules st pre post a h
    have hchecks : ∀ x ∈ pre, x.isCheck = true := by
      intro x hx
      exact checkSiblings_isCheck x (h ▸ List.mem_append_left _ hx)
    obtain ⟨r, hr, rfl⟩ := checkSiblings_checks (h ▸ List.mem_append_right _ List.mem_cons_self)
    exact ⟨(eventAfter_checks hchecks ev).symm, rfl, List.mem_map_of_mem hr⟩
  refine checkTopRules_induction (P := fun ev rules st o => ∀ pre post a,
    o.trace = pre ++ a :: post → a.event = eventAfter ev pre ∧
      (a.event = ev ∧ a.rule ∈ rules.map RoseTree.root ∨ ChildOf rules a.event a.rule))
    ?_ ?_ ?_ ?_ ev rules st pre post a h
  · intro ev rules st f _ pre post a h
    exact (hlevel h).imp_right .inl
  · intro ev rules st _ pre post a h
    exact (hlevel h).imp_right .inl
  · intro ev rules st ms _ _ _ pre post a h
    exact (hlevel h).imp_right .inl
  · intro ev rules st ms fit checked hres hpick ev' st' below ih pre post a h
    have hmem := checkSiblings_mem hres (pickFit_mem hpick)
    rcases append_cons_eq_append_cons h with ⟨post', hpost⟩ | ⟨rfl, rfl, rfl⟩ | ⟨pre', rfl, hpre⟩
    · exact (hlevel hpost).imp_right .inl
    · exact ⟨(eventAfter_checks checkSiblings_isCheck ev).symm, .inl ⟨rfl, List.mem_map_of_mem hmem⟩⟩
    · obtain ⟨hev, hrule⟩ := ih pre' post a hpre
      refine ⟨?_, .inr ?_⟩
      · rw [eventAfter_append, eventAfter_checks checkSiblings_isCheck]
        exact hev
      · rcases hrule with ⟨heq, hrule⟩ | hchild
        · refine ⟨fit.view, ?_, hrule, by rw [heq]; rfl⟩
          exact List.mem_map_of_mem (RoseTree.mem_forestNodes_of_mem hmem)
        · exact hchild.mono
            (RoseTree.forestNodes_children_subset (RoseTree.mem_forestNodes_of_mem hmem))

/-- The first level of a walk is checked in order, and to the end if the walk returns. What
follows is checked below a chosen rule. -/
theorem checkTopRules_levels (ev : Event) (rules : RuleForest ρ) (st : RulesState) :
    ∃ done rest below, rules = done ++ rest ∧
      (checkTopRules host now ev rules st).trace =
        done.map (fun r => Act.check ev r.root) ++ below ∧
      (∀ a ∈ below, a.isCheck = true → ChildOf rules a.event a.rule) ∧
      ∀ e, (checkTopRules host now ev rules st).result = .ok e → rest = [] := by
  refine checkTopRules_induction (P := fun ev rules _ o => ∃ done rest below,
    rules = done ++ rest ∧ o.trace = done.map (fun r => Act.check ev r.root) ++ below ∧
      (∀ a ∈ below, a.isCheck = true → ChildOf rules a.event a.rule) ∧
      ∀ e, o.result = .ok e → rest = []) ?_ ?_ ?_ ?_ ev rules st
  · intro ev rules st f hres
    obtain ⟨done, rest, hrules, htrace, -⟩ := @checkSiblings_trace _ host now ev rules st
    exact ⟨done, rest, [], hrules, by simp [htrace], by simp, fun e h => by cases h⟩
  · intro ev rules st hres
    obtain ⟨done, rest, hrules, htrace, hall⟩ := @checkSiblings_trace _ host now ev rules st
    exact ⟨done, rest, [], hrules, by simp [htrace], by simp, fun e _ => hall _ hres⟩
  · intro ev rules st ms hres _ _
    obtain ⟨done, rest, hrules, htrace, hall⟩ := @checkSiblings_trace _ host now ev rules st
    exact ⟨done, rest, [], hrules, by simp [htrace], by simp, fun e _ => hall _ hres⟩
  · intro ev rules st ms fit checked hres hpick ev' st' below ih
    obtain ⟨done, rest, hrules, htrace, hall⟩ := @checkSiblings_trace _ host now ev rules st
    obtain ⟨done', rest', below', hchildren, htrace', hbelow', -⟩ := ih
    have hmem := RoseTree.mem_forestNodes_of_mem (checkSiblings_mem hres (pickFit_mem hpick))
    refine ⟨done, rest, .fit ev fit.root checked :: below.trace, hrules, by simp [htrace], ?_,
      fun e _ => hall _ hres⟩
    intro a ha hcheck
    rcases List.mem_cons.mp ha with rfl | ha
    · cases hcheck
    · rw [htrace', List.mem_append, List.mem_map] at ha
      rcases ha with ⟨r, hr, rfl⟩ | ha
      · refine ⟨fit.view, List.mem_map_of_mem hmem, ?_, rfl⟩
        rw [RoseTree.view, hchildren]
        exact List.mem_map_of_mem (List.mem_append_left _ hr)
      · exact (hbelow' a ha hcheck).mono (RoseTree.forestNodes_children_subset hmem)

/-- What a walk chooses it has checked before, on the same level. -/
def Justified (host : Host ρ) (now : ℤ) (st : RulesState) (pre : List (Act ρ)) (ev : Event)
    (rl : Rule ρ) (c : Checked) : Prop :=
  ∃ before between, pre = before ++ .check ev rl :: between ∧
    (∀ x ∈ between, x.isCheck = true) ∧
    (checkRule host now ev rl (replay host now st before)).2 = .ok c ∧ c.matched = true

theorem checkTopRules_fit (ev : Event) (rules : RuleForest ρ) (st : RulesState)
    {pre post : List (Act ρ)} {e : Event} {rl : Rule ρ} {c : Checked}
    (h : (checkTopRules host now ev rules st).trace = pre ++ .fit e rl c :: post) :
    Justified host now st pre e rl c := by
  have hlevel : ∀ {ev : Event} {rules : RuleForest ρ} {st : RulesState}
      {pre post : List (Act ρ)} {P : Prop},
      (checkSiblings host now ev rules st).trace = pre ++ .fit e rl c :: post → P := by
    intro ev rules st pre post P h
    obtain ⟨r, -, heq⟩ := checkSiblings_checks (h ▸ List.mem_append_right _ List.mem_cons_self)
    cases heq
  refine checkTopRules_induction (P := fun ev rules st o => ∀ pre post,
    o.trace = pre ++ .fit e rl c :: post → Justified host now st pre e rl c)
    ?_ ?_ ?_ ?_ ev rules st pre post h
  · intro ev rules st f _ pre post h
    exact hlevel h
  · intro ev rules st _ pre post h
    exact hlevel h
  · intro ev rules st ms _ _ _ pre post h
    exact hlevel h
  · intro ev rules st ms fit checked hres hpick ev' st' below ih pre post h
    rcases append_cons_eq_append_cons h with ⟨post', hpost⟩ | ⟨rfl, heq, rfl⟩ | ⟨pre', rfl, hpre⟩
    · exact hlevel hpost
    · cases heq
      obtain ⟨before, after, htrace, hcheck, hm⟩ :=
        checkSiblings_candidate hres (pickFit_mem hpick)
      refine ⟨before, after, htrace, ?_, hcheck, hm⟩
      intro x hx
      have hmem : x ∈ (checkSiblings host now e rules st).trace := by
        rw [htrace]
        exact List.mem_append_right _ (List.mem_cons_of_mem _ hx)
      exact checkSiblings_isCheck x hmem
    · obtain ⟨before, between, rfl, hchecks, hcheck, hm⟩ := ih pre' post hpre
      refine ⟨(checkSiblings host now ev rules st).trace ++ .fit ev fit.root checked :: before,
        between, by simp, hchecks, ?_, hm⟩
      rw [replay_append, ← checkSiblings_replay, replay_cons]
      exact hcheck

end Walk

section Call

variable (host : Host ρ) (now : ℤ) (se : SourceEvent) (rules : RuleCfg ρ) (st : RulesState)

/-- The event with which a call of `process_log` enters the group rules, and the states it
finds there. -/
def enterGroups : Option (Event × RulesState) :=
  match formatLog host (.ofSource host se) rules.formats with
  | .error _ => none
  | .ok ev =>
    let std := checkTopRules host now ev rules.stdRules st
    match std.result with
    | .error _ => none
    | .ok ev => some (ev, std.state)

/-- The trace of the standard rules in a call. -/
def stdTrace : List (Act ρ) :=
  match formatLog host (.ofSource host se) rules.formats with
  | .error _ => []
  | .ok ev => (checkTopRules host now ev rules.stdRules st).trace

variable {host now se rules st}

theorem enterGroups_eq_some {ge : Event} {gs : RulesState}
    (h : enterGroups host now se rules st = some (ge, gs)) :
    ∃ start, formatLog host (.ofSource host se) rules.formats = .ok start ∧
      (checkTopRules host now start rules.stdRules st).result = .ok ge ∧
      (checkTopRules host now start rules.stdRules st).state = gs ∧
      stdTrace host now se rules st = (checkTopRules host now start rules.stdRules st).trace := by
  rw [enterGroups] at h
  rw [stdTrace]
  cases hformat : formatLog host (.ofSource host se) rules.formats with
  | error f => simp [hformat] at h
  | ok ev =>
    simp only [hformat] at h ⊢
    cases hstd : (checkTopRules host now ev rules.stdRules st).result with
    | error f => simp [hstd] at h
    | ok ev' =>
      simp only [hstd, Option.some.injEq, Prod.mk.injEq] at h
      obtain ⟨rfl, rfl⟩ := h
      exact ⟨ev, rfl, hstd, rfl, rfl⟩

/-- A call that enters the group rules ends as the walk through them does. -/
theorem processLog_of_enterGroups {ge : Event} {gs : RulesState}
    (h : enterGroups host now se rules st = some (ge, gs)) :
    processLog host now se rules st =
      ⟨(checkTopRules host now ge rules.groupRules gs).state,
        stdTrace host now se rules st ++ (checkTopRules host now ge rules.groupRules gs).trace,
        (checkTopRules host now ge rules.groupRules gs).result⟩ := by
  obtain ⟨start, hformat, hstd, rfl, htrace⟩ := enterGroups_eq_some h
  rw [htrace, processLog]
  simp [hformat, Outcome.andThen, hstd]

theorem processLog_trace_of_not_enterGroups (h : enterGroups host now se rules st = none) :
    (processLog host now se rules st).trace = stdTrace host now se rules st ∧
      ∃ f, (processLog host now se rules st).result = .error f := by
  rw [enterGroups] at h
  rw [processLog, stdTrace]
  cases hformat : formatLog host (.ofSource host se) rules.formats with
  | error f => exact ⟨rfl, f, rfl⟩
  | ok ev =>
    simp only [hformat] at h ⊢
    cases hstd : (checkTopRules host now ev rules.stdRules st).result with
    | error f => simp [Outcome.andThen, hstd]
    | ok ev' => simp [hstd] at h

theorem enterGroups_of_ok {e : Event} (h : (processLog host now se rules st).result = .ok e) :
    ∃ ge gs, enterGroups host now se rules st = some (ge, gs) := by
  cases henter : enterGroups host now se rules st with
  | none =>
    obtain ⟨-, f, hf⟩ := processLog_trace_of_not_enterGroups henter
    rw [hf] at h
    cases h
  | some p => exact ⟨p.1, p.2, rfl⟩

theorem stdTrace_replay {ge : Event} {gs : RulesState}
    (h : enterGroups host now se rules st = some (ge, gs)) :
    gs = replay host now st (stdTrace host now se rules st) := by
  obtain ⟨start, -, -, rfl, htrace⟩ := enterGroups_eq_some h
  rw [htrace]
  exact checkTopRules_replay start rules.stdRules st

/-- The states after a call are those of its trace. -/
theorem processLog_replay (se : SourceEvent) (rules : RuleCfg ρ) (st : RulesState) :
    (processLog host now se rules st).state =
      replay host now st (processLog host now se rules st).trace := by
  rw [processLog]
  cases formatLog host (.ofSource host se) rules.formats with
  | error f => rfl
  | ok ev =>
    simp only [Outcome.andThen]
    cases (checkTopRules host now ev rules.stdRules st).result with
    | error f => exact checkTopRules_replay ev rules.stdRules st
    | ok ev' => simp [← checkTopRules_replay]

/-- Where a rule stands that is checked or chosen with an event. -/
inductive Placed (host : Host ρ) (now : ℤ) (se : SourceEvent) (rules : RuleCfg ρ)
    (st : RulesState) (ev : Event) (rl : Rule ρ) : Prop
  | std (root : rl ∈ rules.stdRules.map RoseTree.root)
  | group {gs : RulesState} (entered : enterGroups host now se rules st = some (ev, gs))
      (root : rl ∈ rules.groupRules.map RoseTree.root)
  | stdChild (child : ChildOf rules.stdRules ev rl)
  | groupChild (child : ChildOf rules.groupRules ev rl)

/-- The two phases of a call, as parts of its trace. -/
theorem processLog_split {pre post : List (Act ρ)} {a : Act ρ}
    (h : (processLog host now se rules st).trace = pre ++ a :: post) :
    ∃ start, formatLog host (.ofSource host se) rules.formats = .ok start ∧
      ((∃ post', (checkTopRules host now start rules.stdRules st).trace = pre ++ a :: post') ∨
        ∃ ge gs pre', enterGroups host now se rules st = some (ge, gs) ∧
          pre = stdTrace host now se rules st ++ pre' ∧
          (checkTopRules host now ge rules.groupRules gs).trace = pre' ++ a :: post) := by
  cases hformat : formatLog host (.ofSource host se) rules.formats with
  | error f => simp [processLog, hformat] at h
  | ok start =>
    have hstd : stdTrace host now se rules st =
        (checkTopRules host now start rules.stdRules st).trace := by
      simp [stdTrace, hformat]
    refine ⟨start, rfl, ?_⟩
    cases henter : enterGroups host now se rules st with
    | none =>
      rw [(processLog_trace_of_not_enterGroups henter).1, hstd] at h
      exact .inl ⟨post, h⟩
    | some p =>
      obtain ⟨ge, gs⟩ := p
      rw [processLog_of_enterGroups henter] at h
      rcases append_eq_append_cons h with ⟨post', hpost⟩ | ⟨pre', hpre, htrace⟩
      · exact .inl ⟨post', hstd ▸ hpost⟩
      · exact .inr ⟨ge, gs, pre', rfl, hpre, htrace⟩

theorem enterGroups_event {ge start : Event} {gs : RulesState}
    (h : enterGroups host now se rules st = some (ge, gs))
    (hformat : formatLog host (.ofSource host se) rules.formats = .ok start) :
    ge = eventAfter start (stdTrace host now se rules st) := by
  obtain ⟨start', hformat', hstd, -, htrace⟩ := enterGroups_eq_some h
  rw [hformat', Except.ok.injEq] at hformat
  subst hformat
  rw [htrace]
  exact checkTopRules_result start' rules.stdRules st hstd

/-- Every act of a call works on the event that the chosen rules have made so far. -/
theorem processLog_act {pre post : List (Act ρ)} {a : Act ρ}
    (h : (processLog host now se rules st).trace = pre ++ a :: post) :
    ∃ start, formatLog host (.ofSource host se) rules.formats = .ok start ∧
      a.event = eventAfter start pre ∧ Placed host now se rules st a.event a.rule := by
  obtain ⟨start, hformat, ⟨post', hstd⟩ | ⟨ge, gs, pre', henter, rfl, hgroup⟩⟩ :=
    processLog_split h
  · obtain ⟨hev, ⟨-, hroot⟩ | hchild⟩ := checkTopRules_act start rules.stdRules st hstd
    · exact ⟨start, hformat, hev, .std hroot⟩
    · exact ⟨start, hformat, hev, .stdChild hchild⟩
  · have hge := enterGroups_event henter hformat
    obtain ⟨hev, hplaced⟩ := checkTopRules_act ge rules.groupRules gs hgroup
    refine ⟨start, hformat, by rw [eventAfter_append, ← hge, hev], ?_⟩
    rcases hplaced with ⟨heq, hroot⟩ | hchild
    · exact .group (heq ▸ henter) hroot
    · exact .groupChild hchild

/-- Whatever a call chooses it has checked before, on the same level. -/
theorem processLog_fit {pre post : List (Act ρ)} {ev : Event} {rl : Rule ρ} {c : Checked}
    (h : (processLog host now se rules st).trace = pre ++ .fit ev rl c :: post) :
    Justified host now st pre ev rl c := by
  obtain ⟨start, -, ⟨post', hstd⟩ | ⟨ge, gs, pre', henter, rfl, hgroup⟩⟩ := processLog_split h
  · exact checkTopRules_fit start rules.stdRules st hstd
  · obtain ⟨before, between, rfl, hchecks, hcheck, hm⟩ :=
      checkTopRules_fit ge rules.groupRules gs hgroup
    refine ⟨stdTrace host now se rules st ++ before, between, by simp, hchecks, ?_, hm⟩
    rw [replay_append, ← stdTrace_replay henter]
    exact hcheck

end Call

end Ctguard
