import Ctguard.NormalReturn

/-!
# The order of sibling rules

A check reads and writes no entry of the states but the one of its rule. On a level
whose rules have different ids, every check therefore finds what it would find first,
and the candidates as well as the states after the level do not depend on the order of
the rules. As no two candidates have the same rank, neither does the choice.
-/

namespace Ctguard

variable {ρ : Type}

section Own

variable (host : Host ρ) (now : ℤ) {ev : Event} {rl : Rule ρ} {st st' : RulesState}

theorem checkUnless_congr (h : st[rl.id]? = st'[rl.id]?) :
    (checkUnless now ev rl st).2 = (checkUnless now ev rl st').2 ∧
      (checkUnless now ev rl st).1[rl.id]? = (checkUnless now ev rl st').1[rl.id]? := by
  have hget : st.getD rl.id {} = st'.getD rl.id {} := by
    rw [Std.ExtTreeMap.getD_eq_getD_getElem?, h, Std.ExtTreeMap.getD_eq_getD_getElem?]
  simp only [checkUnless, hget]
  split_ifs <;> simp

theorem checkActivation_congr (h : st[rl.id]? = st'[rl.id]?) :
    (checkActivation now ev rl st).2 = (checkActivation now ev rl st').2 ∧
      (checkActivation now ev rl st).1[rl.id]? = (checkActivation now ev rl st').1[rl.id]? := by
  simp only [checkActivation, h]
  split_ifs with hact hgroup
  · cases hst : st'[rl.id]? with
    | none => simp
    | some state => simp
  · cases hst : st'[rl.id]? with
    | none => simp [h, hst]
    | some state => simp
  · exact ⟨rfl, h⟩

/-- A check depends on the entry of its rule and on no other. -/
theorem checkRule_congr (h : st[rl.id]? = st'[rl.id]?) :
    (checkRule host now ev rl st).2 = (checkRule host now ev rl st').2 ∧
      (checkRule host now ev rl st).1[rl.id]? = (checkRule host now ev rl st').1[rl.id]? := by
  rw [checkRule, checkRule]
  by_cases hunless : rl.HasUnless
  · rw [if_pos hunless, if_pos hunless]
    exact checkUnless_congr now h
  · rw [if_neg hunless, if_neg hunless]
    obtain ⟨hfound, hstate⟩ : (checkActivation now ev rl st).2 = (checkActivation now ev rl st').2 ∧
        (checkActivation now ev rl st).1[rl.id]? = (checkActivation now ev rl st').1[rl.id]? :=
      checkActivation_congr now h
    simp only [hfound]
    exact ⟨trivial, hstate⟩

theorem checkRule_getElem? {k : RuleId} (h : rl.id ≠ k) :
    (checkRule host now ev rl st).1[k]? = st[k]? :=
  Act.apply_getElem? host now (a := .check ev rl) h st

end Own

section Level

variable {host : Host ρ} {now : ℤ} {ev : Event} {rules : RuleForest ρ}

/-- Behind a check, the other rules find the entries that they found before it. -/
theorem checkRule_behind {r : RoseTree (Rule ρ)} {st st' : RulesState} {x : Except Fault Checked}
    (hids : ((r :: rules).map (·.root.id)).Nodup)
    (h : checkRule host now ev r.root st = (st', x)) {s : RoseTree (Rule ρ)} (hs : s ∈ rules) :
    st'[s.root.id]? = st[s.root.id]? := by
  have hne : r.root.id ≠ s.root.id := by
    intro heq
    rw [List.map_cons, List.nodup_cons] at hids
    exact hids.1 (heq ▸ List.mem_map_of_mem hs)
  have hget : (checkRule host now ev r.root st).1[s.root.id]? = st[s.root.id]? :=
    checkRule_getElem? host now hne
  rwa [h] at hget

/-- A level returns if every rule on it could be checked first. -/
theorem checkSiblings_ok_iff (hids : (rules.map (·.root.id)).Nodup) (st : RulesState) :
    (∃ ms, (checkSiblings host now ev rules st).result = .ok ms) ↔
      ∀ r ∈ rules, ∃ c, (checkRule host now ev r.root st).2 = .ok c := by
  induction rules generalizing st with
  | nil => simp [checkSiblings]
  | cons r rs ih =>
    have hrest : (rs.map (·.root.id)).Nodup := (List.nodup_cons.mp hids).2
    rw [List.forall_mem_cons, checkSiblings]
    rcases hr : checkRule host now ev r.root st with ⟨st', f | c⟩
    · simp
    · have hchecks : (∀ s ∈ rs, ∃ c, (checkRule host now ev s.root st').2 = .ok c) ↔
          ∀ s ∈ rs, ∃ c, (checkRule host now ev s.root st).2 = .ok c := by
        refine forall₂_congr fun s hs => ?_
        rw [(checkRule_congr host now (checkRule_behind hids hr hs)).1]
      rw [← hchecks, ← ih hrest st']
      cases hres : (checkSiblings host now ev rs st').result <;> simp [hres, Except.map]

/-- The candidates are the rules that would match if they were checked first. -/
theorem mem_checkSiblings_iff (hids : (rules.map (·.root.id)).Nodup) {st : RulesState}
    {ms : List (Candidate ρ)} (h : (checkSiblings host now ev rules st).result = .ok ms)
    {c : Candidate ρ} :
    c ∈ ms ↔ c.1 ∈ rules ∧ (checkRule host now ev c.1.root st).2 = .ok c.2 ∧
      c.2.matched = true := by
  induction rules generalizing st ms with
  | nil =>
    cases h
    simp
  | cons r rs ih =>
    have hrest : (rs.map (·.root.id)).Nodup := (List.nodup_cons.mp hids).2
    have hnot : r ∉ rs := fun hr => (List.nodup_cons.mp hids).1 (List.mem_map_of_mem hr)
    rw [checkSiblings] at h
    rcases hr : checkRule host now ev r.root st with ⟨st', f | checked⟩
    · simp [hr] at h
    · simp only [hr] at h
      cases hres : (checkSiblings host now ev rs st').result with
      | error f => simp [hres, Except.map] at h
      | ok more =>
        simp only [hres, Except.map, Except.ok.injEq] at h
        have hmore : c ∈ more ↔ c.1 ∈ rs ∧ (checkRule host now ev c.1.root st).2 = .ok c.2 ∧
            c.2.matched = true := by
          rw [ih hrest hres]
          refine and_congr_right fun hc => ?_
          rw [(checkRule_congr host now (checkRule_behind hids hr hc)).1]
        have hfirst : c.1 = r → ((checkRule host now ev c.1.root st).2 = .ok c.2 ↔
            c.2 = checked) := by
          intro heq
          rw [heq, hr, Except.ok.injEq, eq_comm]
        have hhead : c ∈ ms ↔ (c = (r, checked) ∧ checked.matched = true) ∨ c ∈ more := by
          rw [← h]
          cases hm : checked.matched <;> simp
        rw [hhead, hmore, List.mem_cons, Prod.ext_iff]
        constructor
        · rintro (⟨⟨hroot, hchecked⟩, hm⟩ | ⟨hmem, hcheck⟩)
          · exact ⟨.inl hroot, (hfirst hroot).mpr hchecked, hchecked ▸ hm⟩
          · exact ⟨.inr hmem, hcheck⟩
        · rintro ⟨hroot | hmem, hcheck, hm⟩
          · have hchecked := (hfirst hroot).mp hcheck
            exact .inl ⟨⟨hroot, hchecked⟩, hchecked ▸ hm⟩
          · exact .inr ⟨hmem, hcheck, hm⟩

/-- A level leaves every rule the entry that its check would leave first. -/
theorem checkSiblings_own (hids : (rules.map (·.root.id)).Nodup) {st : RulesState}
    {ms : List (Candidate ρ)} (h : (checkSiblings host now ev rules st).result = .ok ms)
    {r : RoseTree (Rule ρ)} (hr : r ∈ rules) :
    (checkSiblings host now ev rules st).state[r.root.id]? =
      (checkRule host now ev r.root st).1[r.root.id]? := by
  induction rules generalizing st ms with
  | nil => simp at hr
  | cons s rs ih =>
    obtain ⟨hnot, hrest⟩ := List.nodup_cons.mp hids
    rw [checkSiblings] at h ⊢
    rcases hs : checkRule host now ev s.root st with ⟨st', f | checked⟩
    · simp [hs] at h
    · simp only [hs] at h ⊢
      rcases List.mem_cons.mp hr with rfl | hr
      · rw [checkSiblings_replay, replay_getElem?, hs]
        intro a ha heq
        obtain ⟨t, ht, rfl⟩ := checkSiblings_checks ha
        exact hnot (List.mem_map.mpr ⟨t, ht, heq⟩)
      · cases hres : (checkSiblings host now ev rs st').result with
        | error f => simp [hres, Except.map] at h
        | ok more =>
          rw [ih hrest hres hr]
          exact (checkRule_congr host now (checkRule_behind hids hs hr)).2

theorem checkSiblings_other {st : RulesState} {k : RuleId}
    (hk : k ∉ rules.map (·.root.id)) :
    (checkSiblings host now ev rules st).state[k]? = st[k]? := by
  rw [checkSiblings_replay, replay_getElem?]
  intro a ha heq
  obtain ⟨t, ht, rfl⟩ := checkSiblings_checks ha
  exact hk (List.mem_map.mpr ⟨t, ht, heq⟩)

end Level

section Choice

/-- Two candidates that differ only in the order of the rules below them. -/
structure Twin (c c' : Candidate ρ) : Prop where
  root : c'.1.root = c.1.root
  checked : c'.2 = c.2
  children : RoseTree.ForestPerm c.1.children c'.1.children

theorem Twin.rank {c c' : Candidate ρ} (h : Twin c c') : c'.rank = c.rank := by
  rw [Candidate.rank, Candidate.rank, h.root]

theorem Twin.symm {c c' : Candidate ρ} (h : Twin c c') : Twin c' c :=
  ⟨h.root.symm, h.checked.symm, h.children.symm⟩

theorem id_of_rank {c c' : Candidate ρ} (h : c.rank = c'.rank) : c.1.root.id = c'.1.root.id := by
  rw [Candidate.rank, Candidate.rank, Rule.rank, Rule.rank, toLex_inj, Prod.mk.injEq,
    OrderDual.toDual_inj] at h
  exact UInt32.toNat_inj.mp h.2

/-- With one candidate for each id, twins are chosen from twins. -/
theorem pickFit_twin {ms ms' : List (Candidate ρ)} (hms : ∀ c ∈ ms, ∃ c' ∈ ms', Twin c c')
    (hms' : ∀ c' ∈ ms', ∃ c ∈ ms, Twin c c')
    (hids : ∀ c ∈ ms, ∀ d ∈ ms, c.1.root.id = d.1.root.id → c = d) :
    Option.Rel Twin (pickFit ms) (pickFit ms') := by
  rw [pickFit_eq, pickFit_eq]
  cases hmax : ms.argmax Candidate.rank with
  | none =>
    rw [List.argmax_eq_none] at hmax
    subst hmax
    have hnil : ms' = [] := by
      apply List.eq_nil_iff_forall_not_mem.mpr
      intro c' hc'
      obtain ⟨c, hc, -⟩ := hms' c' hc'
      simp at hc
    subst hnil
    exact .none
  | some m =>
    cases hmax' : ms'.argmax Candidate.rank with
    | none =>
      rw [List.argmax_eq_none] at hmax'
      obtain ⟨c', hc', -⟩ := hms m (List.argmax_mem hmax)
      simp [hmax'] at hc'
    | some m' =>
      obtain ⟨c, hc, htwin⟩ := hms' m' (List.argmax_mem hmax')
      obtain ⟨c', hc', htwin'⟩ := hms m (List.argmax_mem hmax)
      have hle : c.rank ≤ m.rank := List.le_of_mem_argmax hc hmax
      have hge : m.rank ≤ c.rank := by
        rw [← htwin.rank, ← htwin'.rank]
        exact List.le_of_mem_argmax hc' hmax'
      have hcm : c = m := hids c hc m (List.argmax_mem hmax) (id_of_rank (le_antisymm hle hge))
      subst hcm
      by_cases hlow : lowestRank < c.rank
      · have hlow' : lowestRank < m'.rank := htwin.rank ▸ hlow
        simpa [Option.filter, hlow, hlow'] using Option.Rel.some htwin
      · have hlow' : ¬ lowestRank < m'.rank := htwin.rank ▸ hlow
        simp [Option.filter, hlow, hlow']

end Choice

section Walk

/-- No two rules of a level have the same id. -/
def DistinctSiblings (rules : RuleForest ρ) : Prop :=
  (rules.map (·.root.id)).Nodup ∧ ∀ v ∈ RoseTree.views rules, (v.2.map (·.id)).Nodup

theorem DistinctSiblings.children {rules : RuleForest ρ} (h : DistinctSiblings rules)
    {t : RoseTree (Rule ρ)} (ht : t ∈ rules) : DistinctSiblings t.children := by
  constructor
  · have hnodup := h.2 t.view (RoseTree.view_mem_views ht)
    rwa [RoseTree.view, List.map_map] at hnodup
  · intro v hv
    have hsub := RoseTree.forestNodes_children_subset (RoseTree.mem_forestNodes_of_mem ht)
    exact h.2 v (List.map_subset _ hsub hv)

/-- Both calls return the same event and leave the same states, or neither returns. -/
def Agree (o o' : Outcome ρ Event) : Prop :=
  (∃ e, o.result = .ok e ∧ o'.result = .ok e ∧ o.state = o'.state) ∨
    (∃ f, o.result = .error f) ∧ ∃ f, o'.result = .error f

variable {host : Host ρ} {now : ℤ} {ev : Event} {rules rules' : RuleForest ρ}

/-- A candidate of a level has a twin on the reordered level. -/
theorem exists_twin (hperm : RoseTree.ForestPerm rules rules')
    (hids : (rules.map (·.root.id)).Nodup) (hids' : (rules'.map (·.root.id)).Nodup)
    {st : RulesState} {ms ms' : List (Candidate ρ)}
    (h : (checkSiblings host now ev rules st).result = .ok ms)
    (h' : (checkSiblings host now ev rules' st).result = .ok ms') {c : Candidate ρ} (hc : c ∈ ms) :
    ∃ c' ∈ ms', Twin c c' := by
  obtain ⟨hmem, hcheck, hm⟩ := (mem_checkSiblings_iff hids h).mp hc
  obtain ⟨t, ht, hroot, hchildren⟩ := hperm.exists_of_mem hmem
  refine ⟨(t, c.2), ?_, hroot, rfl, hchildren⟩
  rw [mem_checkSiblings_iff hids' h']
  exact ⟨ht, by rw [hroot]; exact hcheck, hm⟩

theorem candidate_of_id (hids : (rules.map (·.root.id)).Nodup) {st : RulesState}
    {ms : List (Candidate ρ)} (h : (checkSiblings host now ev rules st).result = .ok ms)
    {c d : Candidate ρ} (hc : c ∈ ms) (hd : d ∈ ms) (hid : c.1.root.id = d.1.root.id) : c = d := by
  obtain ⟨hcmem, hccheck, -⟩ := (mem_checkSiblings_iff hids h).mp hc
  obtain ⟨hdmem, hdcheck, -⟩ := (mem_checkSiblings_iff hids h).mp hd
  have htree : c.1 = d.1 := List.inj_on_of_nodup_map hids hcmem hdmem hid
  rw [htree, hdcheck, Except.ok.injEq] at hccheck
  exact Prod.ext htree hccheck.symm

/-- A reordered level leaves the same states. -/
theorem checkSiblings_state_eq (hperm : RoseTree.ForestPerm rules rules')
    (hids : (rules.map (·.root.id)).Nodup) (hids' : (rules'.map (·.root.id)).Nodup)
    {st : RulesState} {ms ms' : List (Candidate ρ)}
    (h : (checkSiblings host now ev rules st).result = .ok ms)
    (h' : (checkSiblings host now ev rules' st).result = .ok ms') :
    (checkSiblings host now ev rules st).state = (checkSiblings host now ev rules' st).state := by
  apply Std.ExtTreeMap.ext_getElem?
  intro k
  by_cases hk : k ∈ rules.map (·.root.id)
  · obtain ⟨r, hr, rfl⟩ := List.mem_map.mp hk
    obtain ⟨r', hr', hroot, -⟩ := hperm.exists_of_mem hr
    rw [checkSiblings_own hids h hr, ← hroot, checkSiblings_own hids' h' hr']
  · have hk' : k ∉ rules'.map (·.root.id) := by
      intro hmem
      obtain ⟨r', hr', rfl⟩ := List.mem_map.mp hmem
      obtain ⟨r, hr, hroot, -⟩ := hperm.symm.exists_of_mem hr'
      exact hk (List.mem_map.mpr ⟨r, hr, by rw [hroot]⟩)
    rw [checkSiblings_other hk, checkSiblings_other hk']

theorem nodup_of_perm (hperm : RoseTree.ForestPerm rules rules')
    (hids : (rules.map (·.root.id)).Nodup) : (rules'.map (·.root.id)).Nodup := by
  have hperm' := hperm.map_root.map Rule.id
  rw [List.map_map, List.map_map] at hperm'
  exact hperm'.nodup_iff.mp hids

/-- If a level returns, so does the reordered one, with the same states, candidates if there
were any, and a twin of the choice. -/
theorem checkSiblings_perm (hperm : RoseTree.ForestPerm rules rules')
    (hids : (rules.map (·.root.id)).Nodup) {st : RulesState} {ms : List (Candidate ρ)}
    (h : (checkSiblings host now ev rules st).result = .ok ms) :
    ∃ ms', (checkSiblings host now ev rules' st).result = .ok ms' ∧
      (checkSiblings host now ev rules' st).state = (checkSiblings host now ev rules st).state ∧
      (ms' = [] ↔ ms = []) ∧ Option.Rel Twin (pickFit ms) (pickFit ms') := by
  have hids' := nodup_of_perm hperm hids
  have hok : ∃ ms', (checkSiblings host now ev rules' st).result = .ok ms' := by
    have hchecks := (checkSiblings_ok_iff hids st).mp ⟨ms, h⟩
    rw [checkSiblings_ok_iff hids' st]
    intro r' hr'
    obtain ⟨r, hr, hroot, -⟩ := hperm.symm.exists_of_mem hr'
    exact hroot ▸ hchecks r hr
  obtain ⟨ms', h'⟩ := hok
  have htwin : ∀ c ∈ ms, ∃ c' ∈ ms', Twin c c' := fun c hc =>
    exists_twin hperm hids hids' h h' hc
  have htwin' : ∀ c' ∈ ms', ∃ c ∈ ms, Twin c c' := by
    intro c' hc'
    obtain ⟨c, hc, hcc⟩ := exists_twin hperm.symm hids' hids h' h hc'
    exact ⟨c, hc, hcc.symm⟩
  refine ⟨ms', h', (checkSiblings_state_eq hperm hids hids' h h').symm, ?_,
    pickFit_twin htwin htwin' fun c hc d hd => candidate_of_id hids h hc hd⟩
  constructor
  · rintro rfl
    apply List.eq_nil_iff_forall_not_mem.mpr
    intro c hc
    obtain ⟨c', hc', -⟩ := htwin c hc
    simp at hc'
  · rintro rfl
    apply List.eq_nil_iff_forall_not_mem.mpr
    intro c' hc'
    obtain ⟨c, hc, -⟩ := htwin' c' hc'
    simp at hc

/-- Walks through reordered rules agree. By induction on the walk: what is chosen on the first
level are twins, below which the rules are reordered. -/
theorem checkTopRules_agree (hperm : RoseTree.ForestPerm rules rules')
    (hids : DistinctSiblings rules) (st : RulesState) :
    Agree (checkTopRules host now ev rules st) (checkTopRules host now ev rules' st) := by
  refine checkTopRules_induction (P := fun ev rules st o => ∀ rules',
    RoseTree.ForestPerm rules rules' → DistinctSiblings rules →
      Agree o (checkTopRules host now ev rules' st)) ?_ ?_ ?_ ?_ ev rules st rules' hperm hids
  · intro ev rules st f hres rules' hperm hids
    rw [checkTopRules_eq, Outcome.andThen]
    cases hres' : (checkSiblings host now ev rules' st).result with
    | error f' => exact .inr ⟨⟨f, rfl⟩, f', rfl⟩
    | ok ms' =>
      obtain ⟨ms, hms, -⟩ :=
        checkSiblings_perm hperm.symm (nodup_of_perm hperm hids.1) hres'
      rw [hres] at hms
      cases hms
  · intro ev rules st hres rules' hperm hids
    obtain ⟨ms', hres', hstate, hnil, -⟩ := checkSiblings_perm hperm hids.1 hres
    rw [checkTopRules_eq, Outcome.andThen, hres']
    exact .inl ⟨ev, rfl, by simp [hnil], by simp [hnil, hstate]⟩
  · intro ev rules st ms hres hms hpick rules' hperm hids
    obtain ⟨ms', hres', -, hnil, htwin⟩ := checkSiblings_perm hperm hids.1 hres
    rw [checkTopRules_eq, Outcome.andThen, hres']
    rw [hpick] at htwin
    have hpick' : pickFit ms' = none := by
      generalize pickFit ms' = fit' at htwin
      cases htwin
      rfl
    exact .inr ⟨⟨noFit, rfl⟩, noFit, by simp [hnil, hms, hpick']⟩
  · intro ev rules st ms fit checked hres hpick ev' st' below ih rules' hperm hids
    obtain ⟨ms', hres', hstate, hnil, htwin⟩ := checkSiblings_perm hperm hids.1 hres
    rw [hpick] at htwin
    have hfit : ∃ c', pickFit ms' = some c' ∧ Twin (fit, checked) c' := by
      generalize pickFit ms' = fit' at htwin
      cases htwin with
      | some h => exact ⟨_, rfl, h⟩
    obtain ⟨⟨fit', checked'⟩, hpick', ⟨hroot, rfl, hchildren⟩⟩ := hfit
    have hms : ms ≠ [] := by
      rintro rfl
      cases hpick
    have hbelow := ih fit'.children hchildren
      (hids.children (checkSiblings_mem hres (pickFit_mem hpick)))
    rw [checkTopRules_eq, Outcome.andThen, hres']
    simp only [hnil, hms, if_false, hpick', hstate] at hroot ⊢
    rw [hroot]
    exact hbelow

end Walk

section Call

variable {host : Host ρ} {now : ℤ} {se : SourceEvent} {rules rules' : RuleCfg ρ}
  {st : RulesState}

/-- Rules in which lists of siblings are permuted, and nothing else is changed. -/
structure RuleCfg.Reordered (rules rules' : RuleCfg ρ) : Prop where
  stdRules : RoseTree.ForestPerm rules.stdRules rules'.stdRules
  groupRules : RoseTree.ForestPerm rules.groupRules rules'.groupRules
  groups : rules'.groups = rules.groups
  formats : rules'.formats = rules.formats
  interventions : rules'.interventions = rules.interventions

theorem RuleCfg.Reordered.exists_view (h : rules.Reordered rules') {v : Rule ρ × List (Rule ρ)}
    (hv : v ∈ rules'.views) : ∃ w ∈ rules.views, w.1 = v.1 ∧ w.2.Perm v.2 := by
  rcases List.mem_append.mp hv with hv | hv
  · obtain ⟨w, hw, heq⟩ := h.stdRules.exists_view hv
    exact ⟨w, List.mem_append_left _ hw, heq⟩
  · obtain ⟨w, hw, heq⟩ := h.groupRules.exists_view hv
    exact ⟨w, List.mem_append_right _ hw, heq⟩

/-- What files of rules can produce, they can produce in another order. -/
theorem RuleCfg.Valid.reordered (hrules : rules.Valid host) (h : rules.Reordered rules') :
    rules'.Valid host := by
  constructor
  · intro v hv
    obtain ⟨w, hw, heq, -⟩ := h.exists_view hv
    exact heq ▸ hrules.rule w hw
  · intro v hv c hc
    obtain ⟨w, hw, heq, hperm⟩ := h.exists_view hv
    exact heq ▸ hrules.edge w hw c (hperm.mem_iff.mpr hc)
  · intro r hr
    exact hrules.stdRoot r (h.stdRules.map_root.mem_iff.mpr hr)
  · intro r hr
    exact hrules.groupRoot r (h.groupRules.map_root.mem_iff.mpr hr)
  · intro v hv w hw hid
    obtain ⟨v', hv', hveq, -⟩ := h.exists_view hv
    obtain ⟨w', hw', hweq, -⟩ := h.exists_view hw
    rw [← hveq, ← hweq] at hid ⊢
    exact hrules.same v' hv' w' hw' hid
  · exact nodup_of_perm h.groupRules hrules.groupIds
  · rw [h.formats]
    exact hrules.formats

/-- Whether a call ends with an exception. -/
def Throws (o : Outcome ρ Event) : Prop := ∃ f, o.result = .error f ∧ ∀ i, f ≠ .outOfRange i

theorem throws_of_error (hrules : rules.Valid host) {f : Fault}
    (h : (processLog host now se rules st).result = .error f) :
    Throws (processLog host now se rules st) := by
  refine ⟨f, h, ?_⟩
  rintro i rfl
  exact processLog_ne_outOfRange hrules i h

theorem processLog_agree (hperm : rules.Reordered rules') (hstd : DistinctSiblings rules.stdRules)
    (hgroup : DistinctSiblings rules.groupRules) :
    Agree (processLog host now se rules st) (processLog host now se rules' st) := by
  rw [processLog, processLog, hperm.formats]
  cases formatLog host (.ofSource host se) rules.formats with
  | error f => exact .inr ⟨⟨f, rfl⟩, f, rfl⟩
  | ok ev =>
    simp only [Outcome.andThen]
    have hwalks : Agree (checkTopRules host now ev rules.stdRules st)
        (checkTopRules host now ev rules'.stdRules st) :=
      checkTopRules_agree hperm.stdRules hstd st
    rcases hwalks with ⟨e, hok, hok', hstate⟩ | ⟨⟨f, hf⟩, f', hf'⟩
    · rw [hok, hok', hstate]
      exact checkTopRules_agree hperm.groupRules hgroup _
    · rw [hf, hf']
      exact .inr ⟨⟨f, rfl⟩, f', rfl⟩

/-- The order of sibling rules does not matter: with them in any order, a call returns the same
event and leaves the same states, or it throws. -/
theorem processLog_order_free (hperm : rules.Reordered rules')
    (hstd : DistinctSiblings rules.stdRules) (hgroup : DistinctSiblings rules.groupRules) (now : ℤ)
    (se : SourceEvent) (st : RulesState) :
    Agree (processLog host now se rules st) (processLog host now se rules' st) ∧
      (rules.Valid host → ∀ f, (processLog host now se rules st).result = .error f →
        Throws (processLog host now se rules st) ∧ Throws (processLog host now se rules' st)) := by
  have hagree : Agree (processLog host now se rules st) (processLog host now se rules' st) :=
    processLog_agree hperm hstd hgroup
  refine ⟨hagree, ?_⟩
  intro hrules f hf
  rcases hagree with ⟨e, hok, -⟩ | ⟨-, f', hf'⟩
  · rw [hf] at hok
    cases hok
  · exact ⟨throws_of_error hrules hf, throws_of_error (hrules.reordered hperm) hf'⟩

end Call

/-- A rule with two children that match whenever it does, and a rule beside it. -/
def twoLevels : RuleCfg PlainRegex where
  stdRules := [
    ⟨{ id := 1, priority := 3, triggerGroup := "!ALWAYS" }, [
      ⟨{ id := 2, parentIds := [1], priority := 4 }, []⟩,
      ⟨{ id := 3, parentIds := [1], priority := 4 }, []⟩]⟩,
    ⟨{ id := 4, priority := 2, triggerGroup := "!ALWAYS" }, []⟩]

/-- The same rules, with the siblings of both levels in another order. -/
def twoLevelsBackwards : RuleCfg PlainRegex where
  stdRules := [
    ⟨{ id := 4, priority := 2, triggerGroup := "!ALWAYS" }, []⟩,
    ⟨{ id := 1, priority := 3, triggerGroup := "!ALWAYS" }, [
      ⟨{ id := 3, parentIds := [1], priority := 4 }, []⟩,
      ⟨{ id := 2, parentIds := [1], priority := 4 }, []⟩]⟩]

theorem twoLevels_order_free :
    Agree (processLog plainHost 7 { message := "hello" } twoLevels ∅)
        (processLog plainHost 7 { message := "hello" } twoLevelsBackwards ∅) ∧
      (twoLevels.Valid plainHost → ∀ f,
        (processLog plainHost 7 { message := "hello" } twoLevels ∅).result = .error f →
          Throws (processLog plainHost 7 { message := "hello" } twoLevels ∅) ∧
            Throws (processLog plainHost 7 { message := "hello" } twoLevelsBackwards ∅)) := by
  have hstd : RoseTree.ForestPerm twoLevels.stdRules twoLevelsBackwards.stdRules :=
    .trans (.swap _ _ _) (.cons _ .nil (.cons _ (.swap _ _ _) .nil))
  exact processLog_order_free ⟨hstd, .nil, rfl, rfl, rfl⟩ ⟨by decide, by decide⟩
    ⟨by decide, by decide⟩ 7 { message := "hello" } ∅

end Ctguard
