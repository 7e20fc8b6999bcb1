import Ctguard.AcceptedRules
import Ctguard.PlainHost

/-!
# Which copies of a rule have which children

A rule is put into the forests once for every place it names, but below another rule
only at the first occurrence of that one. For each id the lists of children of its
occurrences, in preorder, are followed through the insertions: the insertion of a rule
makes the first list longer and leaves the others as they are. Hence a rule is found
below all copies of a rule it refers to exactly if that rule stands at a single place.
-/

namespace Ctguard

variable {ρ : Type} {host : Host ρ}

/-- The children of every occurrence of an id, in preorder. -/
def RuleCfg.childLists (rules : RuleCfg ρ) (id : RuleId) : List (List (Rule ρ)) :=
  (rules.views.filter (·.1.id = id)).map Prod.snd

theorem RuleCfg.mem_childLists {rules : RuleCfg ρ} {id : RuleId} {cs : List (Rule ρ)} :
    cs ∈ rules.childLists id ↔ ∃ v ∈ rules.views, v.1.id = id ∧ v.2 = cs := by
  simp [childLists, and_assoc]

/-- The rules below which a rule is put. -/
def Rule.refs (rl : Rule ρ) : List RuleId :=
  (if rl.Grouped then [] else rl.parentIds) ++
    if rl.unlessRule.id = 0 then [] else [rl.unlessRule.id]

/-- The number of places of a rule. -/
def Rule.placements (rl : Rule ρ) : ℕ :=
  (if rl.Grouped ∨ rl.parentIds = [] then 1 else 0) + rl.refs.length

section Grow

/-- Some copies of a rule behind the first list. -/
def grow (ex : Rule ρ) (n : ℕ) : List (List (Rule ρ)) → List (List (Rule ρ))
  | [] => []
  | cs :: rest => (cs ++ List.replicate n ex) :: rest

@[simp] theorem grow_nil (ex : Rule ρ) (n : ℕ) : grow ex n [] = [] := rfl

@[simp] theorem grow_cons (ex : Rule ρ) (n : ℕ) (cs : List (Rule ρ))
    (rest : List (List (Rule ρ))) :
    grow ex n (cs :: rest) = (cs ++ List.replicate n ex) :: rest := rfl

@[simp] theorem grow_zero (ex : Rule ρ) (lists : List (List (Rule ρ))) :
    grow ex 0 lists = lists := by
  cases lists <;> simp

theorem grow_grow (ex : Rule ρ) (m n : ℕ) (lists : List (List (Rule ρ))) :
    grow ex n (grow ex m lists) = grow ex (m + n) lists := by
  cases lists with
  | nil => rfl
  | cons cs rest => simp

@[simp] theorem length_grow (ex : Rule ρ) (n : ℕ) (lists : List (List (Rule ρ))) :
    (grow ex n lists).length = lists.length := by
  cases lists <;> rfl

end Grow

section Insertion

/-- An insertion below an id makes the first list of that id longer. -/
theorem Attached.childLists_of_ne {ex : Rule ρ} {id id' : RuleId} {rules rules' : RuleCfg ρ}
    (h : Attached ex id rules rules') (hne : id' ≠ ex.id) :
    rules'.childLists id' = grow ex ([id].count id') (rules.childLists id') := by
  obtain ⟨pre, a, cs, mid, post, ha, hpre, hviews, hviews'⟩ := h.views
  have hex : ¬ ex.id = id' := fun heq => hne heq.symm
  rw [RuleCfg.childLists, RuleCfg.childLists, hviews, hviews']
  by_cases hid : id = id'
  · subst hid
    have hnil : pre.filter (·.1.id = id) = [] := by
      simpa [List.filter_eq_nil_iff] using hpre
    simp [hnil, ha, hex]
  · have haid : ¬ a.id = id' := by rw [ha]; exact hid
    simp [haid, hex, hid]

theorem Attached.childLists_self {ex : Rule ρ} {id : RuleId} {rules rules' : RuleCfg ρ}
    (h : Attached ex id rules rules') (hne : id ≠ ex.id) {n : ℕ}
    (hn : rules.childLists ex.id = List.replicate n []) :
    rules'.childLists ex.id = List.replicate (n + 1) [] := by
  obtain ⟨pre, a, cs, mid, post, ha, -, hviews, hviews'⟩ := h.views
  have haid : ¬ a.id = ex.id := by rw [ha]; exact hne
  rw [RuleCfg.childLists, hviews] at hn
  rw [RuleCfg.childLists, hviews', List.eq_replicate_iff]
  rw [List.eq_replicate_iff] at hn
  obtain ⟨hlen, hall⟩ := hn
  simp only [List.filter_append, List.filter_cons, haid, decide_true, decide_false, if_true,
    Bool.false_eq_true, if_false, List.map_append, List.map_cons, List.length_append,
    List.length_cons, List.mem_append, List.mem_cons] at hlen hall ⊢
  refine ⟨by omega, ?_⟩
  rintro b (hb | hb | rfl | hb)
  · exact hall b (.inl hb)
  · exact hall b (.inr (.inl hb))
  · rfl
  · exact hall b (.inr (.inr hb))

theorem AttachedAll.concat {ex : Rule ρ} {ids : List RuleId} {id : RuleId}
    {rules middle rules' : RuleCfg ρ} (h : AttachedAll ex ids rules middle)
    (hlast : Attached ex id middle rules') : AttachedAll ex (ids ++ [id]) rules rules' := by
  induction h with
  | nil => exact .cons hlast (.nil _)
  | cons head tail ih => exact .cons head (ih hlast)

theorem AttachedAll.childLists_of_ne {ex : Rule ρ} {ids : List RuleId} {rules rules' : RuleCfg ρ}
    (h : AttachedAll ex ids rules rules') {id : RuleId} (hne : id ≠ ex.id) :
    rules'.childLists id = grow ex (ids.count id) (rules.childLists id) := by
  induction h with
  | nil => simp
  | @cons id' ids rules middle rules' head tail ih =>
    rw [ih, head.childLists_of_ne hne, grow_grow, ← List.count_append, List.singleton_append]

theorem AttachedAll.childLists_self {ex : Rule ρ} {ids : List RuleId} {rules rules' : RuleCfg ρ}
    (h : AttachedAll ex ids rules rules') (hself : ex.id ∉ ids) {n : ℕ}
    (hn : rules.childLists ex.id = List.replicate n []) :
    rules'.childLists ex.id = List.replicate (n + ids.length) [] := by
  induction h generalizing n with
  | nil => simpa using hn
  | @cons id' ids rules middle rules' head tail ih =>
    rw [List.mem_cons, not_or] at hself
    have hmiddle := head.childLists_self (Ne.symm hself.1) hn
    rw [ih hself.2 hmiddle, List.length_cons, Nat.add_assoc, Nat.add_comm 1]

/-- The ids below which a rule is inserted have occurrences. -/
theorem AttachedAll.childLists_ne_nil {ex : Rule ρ} {ids : List RuleId} {rules rules' : RuleCfg ρ}
    (h : AttachedAll ex ids rules rules') {id : RuleId} (hid : id ∈ ids) (hne : id ≠ ex.id) :
    rules.childLists id ≠ [] := by
  induction h with
  | nil => simp at hid
  | @cons id' ids rules middle rules' head tail ih =>
    rcases List.mem_cons.mp hid with rfl | hid
    · obtain ⟨pre, a, cs, mid, post, ha, -, hviews, -⟩ := head.views
      have hmem : cs ∈ rules.childLists id := RuleCfg.mem_childLists.mpr ⟨(a, cs), by simp [hviews], ha, rfl⟩
      exact List.ne_nil_of_mem hmem
    · intro hnil
      have hmiddle := head.childLists_of_ne hne
      rw [hnil, grow_nil] at hmiddle
      exact ih hid hmiddle

/-- The new occurrence at the top of a forest, for a rule that gets one. -/
def rootViews (ex : Rule ρ) : List (Rule ρ × List (Rule ρ)) :=
  if ex.Grouped ∨ ex.parentIds = [] then [(ex, [])] else []

/-- An accepted rule is put at the top or not, and then below all that it refers to. -/
structure Inserted (ex : Rule ρ) (rules rules' : RuleCfg ρ) : Prop where
  fresh : ∀ v ∈ rules.views, v.1.id ≠ ex.id
  noSelf : ex.id ∉ ex.refs
  steps : ∃ middle pre post, rules.views = pre ++ post ∧
    middle.views = pre ++ (rootViews ex ++ post) ∧ AttachedAll ex ex.refs middle rules'

theorem insertNormally_steps {ex : Rule ρ} {rules rules' : RuleCfg ρ}
    (h : insertNormally ex rules = .ok rules') :
    ∃ middle pre post, rules.views = pre ++ post ∧ middle.views = pre ++ (rootViews ex ++ post) ∧
      AttachedAll ex (if ex.Grouped then [] else ex.parentIds) middle rules' := by
  rw [insertNormally] at h
  rw [rootViews]
  by_cases hgrouped : ex.Grouped
  · rw [if_pos hgrouped, Except.ok.injEq] at h
    subst h
    refine ⟨_, rules.views, [], by simp, ?_, by simpa [hgrouped] using AttachedAll.nil _⟩
    simp [RuleCfg.views, hgrouped]
  · rw [if_neg hgrouped] at h
    by_cases hparents : ex.parentIds = []
    · rw [if_pos hparents, Except.ok.injEq] at h
      subst h
      refine ⟨_, RoseTree.views rules.stdRules, RoseTree.views rules.groupRules, rfl, ?_,
        by simpa [hgrouped, hparents] using AttachedAll.nil _⟩
      simp [RuleCfg.views, hparents]
    · rw [if_neg hparents] at h
      refine ⟨rules, rules.views, [], by simp, by simp [hgrouped, hparents], ?_⟩
      simpa [hgrouped] using insertParents_attachedAll h

theorem Passed.noSelf {rules : RuleCfg ρ} {draft : Draft ρ} {ex : Rule ρ}
    (h : Passed host rules draft ex) : ex.id ∉ ex.refs := by
  have hunless : draft.rule.unlessRule.id = draft.rule.id → ¬ draft.rule.HasUnless :=
    fun heq hu => h.fresh (heq ▸ h.unlessKnown hu)
  rw [h.eq, Rule.refs]
  simp only [List.mem_append, not_or]
  constructor
  · split_ifs
    · simp
    · exact h.notParent
  · split_ifs with hzero
    · simp
    · rw [List.mem_singleton]
      exact fun heq => hunless heq.symm hzero

/-- A rule that passed the checks is inserted by both parts of the insertion. -/
theorem inserted_of_checked {rules last rules' : RuleCfg ρ} {draft : Draft ρ} {ex : Rule ρ}
    (checked : checkDraft host rules draft = .ok ex) (normally : insertNormally ex rules = .ok last)
    (waiting : insertUnless ex ex.unlessRule.id last = .ok rules') : Inserted ex rules rules' := by
  have passed := checkDraft_passed checked
  obtain ⟨middle, pre, post, hviews, hviews', hparents⟩ := insertNormally_steps normally
  have hid : ex.id = draft.rule.id := by rw [passed.eq]
  have hfresh : ∀ v ∈ rules.views, v.1.id ≠ ex.id := by
    intro v hv heq
    exact passed.fresh (RuleCfg.hasRule_iff.mpr ⟨v, hv, heq.trans hid⟩)
  refine ⟨hfresh, passed.noSelf, middle, pre, post, hviews, hviews', ?_⟩
  rw [insertUnless] at waiting
  rw [Rule.refs]
  by_cases hunless : ex.unlessRule.id = 0
  · rw [if_pos hunless, Except.ok.injEq] at waiting
    subst waiting
    simpa [hunless] using hparents
  · rw [if_neg hunless] at waiting
    cases hbelow : insertBelow ex ex.unlessRule.id last with
    | none => simp [hbelow] at waiting
    | some rules'' =>
      simp only [hbelow, Except.ok.injEq] at waiting
      subst waiting
      rw [if_neg hunless]
      exact hparents.concat (insertBelow_attached hbelow)

theorem NodeRead.inserted {rules rules' : RuleCfg ρ} {node : XMLNode}
    (h : NodeRead host rules node rules') :
    rules'.views = rules.views ∨ ∃ ex, Inserted ex rules rules' := by
  cases h with
  | group name g => exact .inl rfl
  | intervention name i => exact .inl rfl
  | format name f markCount => exact .inl rfl
  | rule name read checked normally waiting =>
    exact .inr ⟨_, inserted_of_checked checked normally waiting⟩

/-- What an insertion does to the lists of children of every id. -/
theorem Inserted.childLists {ex : Rule ρ} {rules rules' : RuleCfg ρ}
    (h : Inserted ex rules rules') :
    (∀ id ≠ ex.id, rules'.childLists id = grow ex (ex.refs.count id) (rules.childLists id)) ∧
      rules'.childLists ex.id = List.replicate ex.placements [] ∧
      (∀ id ∈ ex.refs, rules.childLists id ≠ []) ∧
      ∀ v ∈ rules'.views, v.1 = ex ∨ ∃ w ∈ rules.views, w.1 = v.1 := by
  obtain ⟨middle, pre, post, hviews, hmiddle, hrefs⟩ := h.steps
  have hother : ∀ id ≠ ex.id, middle.childLists id = rules.childLists id := by
    intro id hne
    have hnil : (rootViews ex).filter (·.1.id = id) = [] := by
      rw [rootViews]
      split_ifs <;> simp [Ne.symm hne]
    simp [RuleCfg.childLists, hviews, hmiddle, hnil]
  have hself : middle.childLists ex.id =
      List.replicate (if ex.Grouped ∨ ex.parentIds = [] then 1 else 0) [] := by
    have hnil : ∀ vs : List (Rule ρ × List (Rule ρ)), vs ⊆ rules.views →
        vs.filter (·.1.id = ex.id) = [] := by
      intro vs hvs
      rw [List.filter_eq_nil_iff]
      intro v hv
      simpa using h.fresh v (hvs hv)
    have hpre := hnil pre (hviews ▸ List.subset_append_left _ _)
    have hpost := hnil post (hviews ▸ List.subset_append_right _ _)
    rw [RuleCfg.childLists, hmiddle, List.filter_append, List.filter_append, hpre, hpost, rootViews]
    split_ifs <;> simp
  refine ⟨?_, ?_, ?_, ?_⟩
  · intro id hne
    rw [hrefs.childLists_of_ne hne, hother id hne]
  · exact hrefs.childLists_self h.noSelf hself
  · intro id hid
    have hne : id ≠ ex.id := fun heq => h.noSelf (heq ▸ hid)
    rw [← hother id hne]
    exact hrefs.childLists_ne_nil hid hne
  · intro v hv
    rcases hrefs.mem_views hv with heq | ⟨w, hw, heq⟩
    · exact .inl heq
    · rw [hmiddle, List.mem_append, List.mem_append] at hw
      rcases hw with hw | hw | hw
      · exact .inr ⟨w, hviews ▸ List.mem_append_left _ hw, heq⟩
      · rw [rootViews] at hw
        split_ifs at hw
        · rw [List.mem_singleton.mp hw] at heq
          exact .inl heq.symm
        · simp at hw
      · exact .inr ⟨w, hviews ▸ List.mem_append_right _ hw, heq⟩

end Insertion

section Inheritance

/-- Every rule has as many copies as places, and is a child of the first copy, and of no
other, of each rule it refers to. -/
structure RuleCfg.Inherits (rules : RuleCfg ρ) : Prop where
  copies : ∀ v ∈ rules.views, (rules.childLists v.1.id).length = v.1.placements
  links : ∀ v ∈ rules.views, ∀ id ∈ v.1.refs, ∃ cs rest,
    rules.childLists id = cs :: rest ∧ v.1 ∈ cs ∧ ∀ ds ∈ rest, v.1 ∉ ds

theorem Inserted.inherits {ex : Rule ρ} {rules rules' : RuleCfg ρ}
    (h : Inserted ex rules rules') (hrules : rules.Inherits) : rules'.Inherits := by
  obtain ⟨hother, hself, hexist, hlabel⟩ := h.childLists
  have hnone : rules.childLists ex.id = [] := by
    rw [List.eq_nil_iff_forall_not_mem]
    intro cs hcs
    obtain ⟨v, hv, hid, -⟩ := RuleCfg.mem_childLists.mp hcs
    exact h.fresh v hv hid
  constructor
  · intro v hv
    rcases hlabel v hv with heq | ⟨w, hw, heq⟩
    · rw [heq, hself, List.length_replicate]
    · rw [← heq, hother _ (h.fresh w hw), length_grow]
      exact hrules.copies w hw
  · intro v hv id hid
    have hne : id ≠ ex.id := by
      rintro rfl
      rcases hlabel v hv with heq | ⟨w, hw, heq⟩
      · exact h.noSelf (heq ▸ hid)
      · obtain ⟨cs, rest, hlists, -⟩ := hrules.links w hw ex.id (heq ▸ hid)
        rw [hnone] at hlists
        cases hlists
    rw [hother id hne]
    rcases hlabel v hv with heq | ⟨w, hw, heq⟩
    · obtain ⟨cs, rest, hlists⟩ := List.exists_cons_of_ne_nil (hexist id (heq ▸ hid))
      refine ⟨_, rest, by rw [hlists, grow_cons], ?_, ?_⟩
      · have hcount : 0 < ex.refs.count id := List.count_pos_iff.mpr (heq ▸ hid)
        rw [heq, List.mem_append, List.mem_replicate]
        exact .inr ⟨by omega, rfl⟩
      · -- nothing that was read before has the new rule as a child
        intro ds hds hmem
        have hlist : ds ∈ rules.childLists id := hlists ▸ List.mem_cons_of_mem _ hds
        obtain ⟨w, hw, -, rfl⟩ := RuleCfg.mem_childLists.mp hlist
        obtain ⟨u, hu, hueq⟩ := RuleCfg.exists_view_of_child hw hmem
        exact h.fresh u hu (by rw [hueq, heq])
    · obtain ⟨cs, rest, hlists, hmem, hrest⟩ := hrules.links w hw id (heq ▸ hid)
      refine ⟨_, rest, by rw [hlists, grow_cons], ?_, heq ▸ hrest⟩
      exact heq ▸ List.mem_append_left _ hmem

theorem parseFiles_inherits {roots : List XMLNode} {rules : RuleCfg ρ}
    (h : parseFiles host roots = .ok rules) : rules.Inherits := by
  refine parseFiles_induction (P := fun _ rules => rules.Inherits) ?_ ?_ h
  · constructor <;> simp [RuleCfg.views]
  · intro pre rules node rules' hrules hread
    rcases hread.inserted with hviews | ⟨ex, hins⟩
    · have hlists : rules'.childLists = rules.childLists := by
        funext id
        rw [RuleCfg.childLists, RuleCfg.childLists, hviews]
      exact ⟨hviews ▸ hlists ▸ hrules.copies, hviews ▸ hlists ▸ hrules.links⟩
    · exact hins.inherits hrules

/-- All copies of a rule that another one refers to have that one as a child exactly if
there is a single copy: a rule at the top without an unless rule, or one whose `if_rule`
elements list one id and which has no unless rule. -/
theorem inherits_iff_placements {roots : List XMLNode} {rules : RuleCfg ρ}
    (h : parseFiles host roots = .ok rules) :
    ∀ v ∈ rules.views, ∀ w ∈ rules.views, w.1.id ∈ v.1.refs →
      ((∀ c ∈ rules.views, c.1.id = w.1.id → v.1 ∈ c.2) ↔ w.1.placements = 1) := by
  intro v hv w hw hid
  have hrules := parseFiles_inherits h
  obtain ⟨cs, rest, hlists, hmem, hrest⟩ := hrules.links v hv w.1.id hid
  rw [← hrules.copies w hw, hlists]
  constructor
  · intro hall
    cases rest with
    | nil => rfl
    | cons ds rest =>
      have hds : ds ∈ rules.childLists w.1.id := by simp [hlists]
      obtain ⟨c, hc, hcid, rfl⟩ := RuleCfg.mem_childLists.mp hds
      exact absurd (hall c hc hcid) (hrest c.2 List.mem_cons_self)
  · intro hone c hc hcid
    have hnil : rest = [] := by
      rw [List.length_cons] at hone
      exact List.length_eq_zero_iff.mp (by omega)
    have hclist : c.2 ∈ rules.childLists w.1.id := RuleCfg.mem_childLists.mpr ⟨c, hc, hcid, rfl⟩
    rw [hlists, hnil, List.mem_singleton] at hclist
    exact hclist ▸ hmem

/-- A node for a rule with the given parents. -/
def plainRule (id : String) (parents : List String) : XMLNode where
  name := "rule"
  attributes := [("id", id), ("priority", "3")]
  children := parents.map fun p => { name := "if_rule", value := p }

/-- Rule 3 is put below rules 1 and 2, and rule 4 refers to rule 3. -/
def copiesFile : XMLNode where
  name := "rule_group"
  children := [plainRule "1" [], plainRule "2" [], plainRule "3" ["1,2"], plainRule "4" ["3"]]

/-- The ids of all rules in preorder, each with those of its children. -/
def shape (roots : List XMLNode) : Except String (List (RuleId × List RuleId)) :=
  (parseFiles plainHost roots).map fun rules => rules.views.map fun v => (v.1.id, v.2.map (·.id))

/-- The copy of rule 3 below rule 2 lacks the child. -/
theorem copiesFile_lacks_child :
    shape [copiesFile] = .ok [(1, [3]), (3, [4]), (4, []), (2, [3]), (3, [])] := by
  decide +kernel

theorem copiesFile_inherits_iff :
    ∃ rules, parseFiles plainHost [copiesFile] = .ok rules ∧
      ∃ v ∈ rules.views, ∃ w ∈ rules.views, w.1.id ∈ v.1.refs ∧
        ((∀ c ∈ rules.views, c.1.id = w.1.id → v.1 ∈ c.2) ↔ w.1.placements = 1) := by
  have href : (parseFiles plainHost [copiesFile]).map (fun rules =>
      decide (∃ v ∈ rules.views, ∃ w ∈ rules.views, w.1.id ∈ v.1.refs)) = .ok true := by
    decide +kernel
  cases hrules : parseFiles plainHost [copiesFile] with
  | error what => simp [hrules, Except.map] at href
  | ok rules =>
    simp only [hrules, Except.map, Except.ok.injEq, decide_eq_true_eq] at href
    obtain ⟨v, hv, w, hw, hid⟩ := href
    exact ⟨rules, rfl, v, hv, w, hw, hid, inherits_iff_placements hrules v hv w hw hid⟩

end Inheritance

end Ctguard
