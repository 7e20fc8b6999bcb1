import Ctguard.Inheritance
import Mathlib.Data.List.Nodup

/-!
# One id, one rule

The rules of accepted nodes are kept in a list beside the configuration. Their ids are all
different, and what stands in the forests are copies of them: every occurrence of an id has the
contents of the one rule with this id, and every rule occurs. So the search for an id finds
something exactly if a node with this id was accepted before.
-/

namespace Ctguard

variable {ρ : Type}

/-- Nodes that are read one after the other, with what has become of the configuration, and
with the accepted rule nodes and their rules. -/
inductive Reads (host : Host ρ) : List XMLNode → RuleCfg ρ → List (XMLNode × Rule ρ) → Prop
  | nil : Reads host [] {} []
  | other {nodes : List XMLNode} {rules rules' : RuleCfg ρ} {accepted : List (XMLNode × Rule ρ)}
      {node : XMLNode} (before : Reads host nodes rules accepted) (name : node.name ≠ "rule")
      (read : parseNode host rules node = .ok rules') :
      Reads host (nodes ++ [node]) rules' accepted
  | rule {nodes : List XMLNode} {rules rules' : RuleCfg ρ} {accepted : List (XMLNode × Rule ρ)}
      {node : XMLNode} {draft : Draft ρ} {ex : Rule ρ} (before : Reads host nodes rules accepted)
      (name : node.name = "rule") (drafted : parseDraft rules.interventions node = .ok draft)
      (checked : checkDraft host rules draft = .ok ex)
      (read : parseNode host rules node = .ok rules') :
      Reads host (nodes ++ [node]) rules' (accepted ++ [(node, ex)])

section Nodes

variable {host : Host ρ} {rules rules' : RuleCfg ρ} {node : XMLNode}

/-- The reading of a rule node, taken apart. -/
theorem parseNode_rule (name : node.name = "rule") :
    parseNode host rules node = .ok rules' ↔ ∃ draft ex middle,
      parseDraft rules.interventions node = .ok draft ∧ checkDraft host rules draft = .ok ex ∧
        insertNormally ex rules = .ok middle ∧ insertUnless ex draft.unlessId middle = .ok rules' := by
  simp only [parseNode, name, parseRule, bind_eq_ok]
  constructor
  · rintro ⟨draft, hdraft, ex, hex, middle, hmiddle, h⟩
    exact ⟨draft, ex, middle, hdraft, hex, hmiddle, h⟩
  · rintro ⟨draft, ex, middle, hdraft, hex, hmiddle, h⟩
    exact ⟨draft, hdraft, ex, hex, middle, hmiddle, h⟩

theorem Reads.step {nodes : List XMLNode} {accepted : List (XMLNode × Rule ρ)}
    (h : Reads host nodes rules accepted) (hread : parseNode host rules node = .ok rules') :
    ∃ accepted', Reads host (nodes ++ [node]) rules' accepted' := by
  by_cases name : node.name = "rule"
  · obtain ⟨draft, ex, middle, hdraft, hex, -⟩ := (parseNode_rule name).mp hread
    exact ⟨_, .rule h name hdraft hex hread⟩
  · exact ⟨_, .other h name hread⟩

theorem reads_of_parseFiles {roots nodes : List XMLNode} (h : parseFiles host roots = .ok rules)
    (hnodes : nodes.foldlM (parseNode host) rules = .ok rules') :
    ∃ accepted, Reads host (roots.flatMap XMLNode.children ++ nodes) rules' accepted := by
  have hstep : ∀ pre rules node rules', (∃ accepted, Reads host pre rules accepted) →
      parseNode host rules node = .ok rules' → ∃ accepted, Reads host (pre ++ [node]) rules' accepted := by
    rintro pre rules node rules' ⟨accepted, hreads⟩ hread
    exact hreads.step hread
  have hfiles := parseFiles_nodes (P := fun pre rules => ∃ accepted, Reads host pre rules accepted)
    ⟨[], .nil⟩ hstep h
  exact foldlM_induction (P := fun pre rules => ∃ accepted, Reads host pre rules accepted) hstep _
    hfiles hnodes

/-- The accepted rule nodes are all rule nodes that were read, in their order. -/
theorem Reads.map_fst {nodes : List XMLNode} {accepted : List (XMLNode × Rule ρ)}
    (h : Reads host nodes rules accepted) :
    accepted.map Prod.fst = nodes.filter (·.name = "rule") := by
  induction h with
  | nil => rfl
  | other before name read ih => simp [ih, name]
  | rule before name drafted checked read ih => simp [ih, name]

end Nodes

section Registered

variable {host : Host ρ} {rules rules' : RuleCfg ρ} {accepted : List (XMLNode × Rule ρ)}

/-- What stands in the forests are copies of the accepted rules, which all have ids of their
own. -/
structure Registered (rules : RuleCfg ρ) (accepted : List (XMLNode × Rule ρ)) : Prop where
  nodup : (accepted.map (·.2.id)).Nodup
  id_ne : ∀ p ∈ accepted, p.2.id ≠ 0
  stems : ∀ v ∈ rules.views, ∃ p ∈ accepted, v.1 = p.2
  occurs : ∀ p ∈ accepted, ∃ v ∈ rules.views, v.1 = p.2

theorem Registered.congr (h : Registered rules accepted) (hviews : rules'.views = rules.views) :
    Registered rules' accepted :=
  ⟨h.nodup, h.id_ne, hviews ▸ h.stems, hviews ▸ h.occurs⟩

theorem Registered.hasRule_iff (h : Registered rules accepted) {id : RuleId} :
    rules.hasRule id ↔ ∃ p ∈ accepted, p.2.id = id := by
  rw [RuleCfg.hasRule_iff]
  constructor
  · rintro ⟨v, hv, rfl⟩
    obtain ⟨p, hp, heq⟩ := h.stems v hv
    exact ⟨p, hp, by rw [heq]⟩
  · rintro ⟨p, hp, rfl⟩
    obtain ⟨v, hv, heq⟩ := h.occurs p hp
    exact ⟨v, hv, by rw [heq]⟩

/-- Accepted entries with one id are the same. -/
theorem Registered.eq_of_id (h : Registered rules accepted) {p q : XMLNode × Rule ρ}
    (hp : p ∈ accepted) (hq : q ∈ accepted) (hid : p.2.id = q.2.id) : p = q :=
  List.inj_on_of_nodup_map h.nodup hp hq hid

theorem Inserted.exists_self {ex : Rule ρ} (h : Inserted ex rules rules') :
    ∃ v ∈ rules'.views, v.1.id = ex.id := by
  have hplaces : ex.placements ≠ 0 := by
    rw [Rule.placements, Rule.refs]
    by_cases hroot : ex.Grouped ∨ ex.parentIds = []
    · rw [if_pos hroot]
      omega
    · rw [not_or] at hroot
      simp [hroot.1, hroot.2]
  obtain ⟨-, hself, -, -⟩ := h.childLists
  have hmem : [] ∈ rules'.childLists ex.id := by
    rw [hself]
    exact List.mem_replicate.mpr ⟨hplaces, rfl⟩
  obtain ⟨v, hv, hid, -⟩ := RuleCfg.mem_childLists.mp hmem
  exact ⟨v, hv, hid⟩

/-- The ids that had an occurrence keep one. -/
theorem Inserted.exists_old {ex : Rule ρ} (h : Inserted ex rules rules')
    {w : Rule ρ × List (Rule ρ)} (hw : w ∈ rules.views) : ∃ v ∈ rules'.views, v.1.id = w.1.id := by
  have hlists : rules'.childLists w.1.id ≠ [] := by
    rw [h.childLists.1 _ (h.fresh w hw), ← List.length_pos_iff, length_grow, List.length_pos_iff]
    exact List.ne_nil_of_mem (RuleCfg.mem_childLists.mpr ⟨w, hw, rfl, rfl⟩)
  obtain ⟨cs, hcs⟩ := List.exists_mem_of_ne_nil _ hlists
  obtain ⟨v, hv, hid, -⟩ := RuleCfg.mem_childLists.mp hcs
  exact ⟨v, hv, hid⟩

theorem Registered.insert {ex : Rule ρ} (h : Registered rules accepted) (hid : ex.id ≠ 0)
    (hins : Inserted ex rules rules') (node : XMLNode) :
    Registered rules' (accepted ++ [(node, ex)]) := by
  have hlabel := hins.childLists.2.2.2
  have hfresh : ∀ p ∈ accepted, p.2.id ≠ ex.id := by
    intro p hp heq
    obtain ⟨v, hv, hveq⟩ := h.occurs p hp
    exact hins.fresh v hv (by rw [hveq, heq])
  refine ⟨?_, ?_, ?_, ?_⟩
  · rw [List.map_append, List.nodup_append]
    refine ⟨h.nodup, by simp, ?_⟩
    intro a ha b hb heq
    obtain ⟨p, hp, rfl⟩ := List.mem_map.mp ha
    rw [List.map_singleton, List.mem_singleton] at hb
    exact hfresh p hp (heq.trans hb)
  · intro p hp
    rcases List.mem_append.mp hp with hp | hp
    · exact h.id_ne p hp
    · rw [List.mem_singleton.mp hp]
      exact hid
  · intro v hv
    rcases hlabel v hv with heq | ⟨w, hw, heq⟩
    · exact ⟨(node, ex), by simp, heq⟩
    · obtain ⟨p, hp, hpeq⟩ := h.stems w hw
      exact ⟨p, List.mem_append_left _ hp, heq.symm.trans hpeq⟩
  · -- an occurrence with the id of an accepted rule is a copy of it
    intro p hp
    rcases List.mem_append.mp hp with hp | hp
    · obtain ⟨w, hw, hweq⟩ := h.occurs p hp
      obtain ⟨v, hv, hvid⟩ := hins.exists_old hw
      refine ⟨v, hv, ?_⟩
      rcases hlabel v hv with heq | ⟨u, hu, heq⟩
      · exact absurd (by rw [← hvid, heq]) (hins.fresh w hw)
      · obtain ⟨q, hq, hqeq⟩ := h.stems u hu
        have hsame : q = p := h.eq_of_id hq hp (by rw [← hqeq, heq, hvid, hweq])
        rw [← heq, hqeq, hsame]
    · rw [List.mem_singleton.mp hp]
      obtain ⟨v, hv, hvid⟩ := hins.exists_self
      refine ⟨v, hv, ?_⟩
      rcases hlabel v hv with heq | ⟨u, hu, heq⟩
      · exact heq
      · exact absurd (by rw [heq, hvid]) (hins.fresh u hu)

theorem Reads.registered {nodes : List XMLNode} (h : Reads host nodes rules accepted) :
    Registered rules accepted := by
  induction h with
  | nil => constructor <;> simp [RuleCfg.views]
  | other before name read ih =>
    apply ih.congr
    cases parseNode_read read with
    | group _ g => rfl
    | intervention _ i => rfl
    | format _ f markCount => rfl
    | rule hname => exact absurd hname name
  | @rule nodes rules rules' accepted node draft ex before name drafted checked read ih =>
    obtain ⟨draft', ex', middle, hdraft', hex', hmiddle, hlast⟩ := (parseNode_rule name).mp read
    obtain rfl : draft = draft' := Except.ok.inj (drafted.symm.trans hdraft')
    obtain rfl : ex = ex' := Except.ok.inj (checked.symm.trans hex')
    have hunless : draft.unlessId = ex.unlessRule.id := by
      rw [(parseDraft_sound drafted).unlessId, (checkDraft_passed checked).eq]
    have hid : ex.id ≠ 0 := by
      rw [(checkDraft_passed checked).eq]
      exact (checkDraft_passed checked).id_ne
    exact ih.insert hid (inserted_of_checked checked hmiddle (hunless ▸ hlast)) node

end Registered

section Rejected

variable {host : Host ρ} {rules : RuleCfg ρ} {accepted : List (XMLNode × Rule ρ)}

def duplicateId (id : RuleId) : String := "Duplicate id given: " ++ toString id

/-- A message that begins differently from those about duplicate ids. -/
def Otherwise (message : String) : Prop := ∃ c, message.toList.head? = some c ∧ c ≠ 'D'

theorem Otherwise.append {a : String} (h : Otherwise a) (b : String) : Otherwise (a ++ b) := by
  obtain ⟨c, hc, hne⟩ := h
  exact ⟨c, by rw [String.toList_append, List.head?_append, hc, Option.some_or], hne⟩

theorem head_duplicateId (id : RuleId) : (duplicateId id).toList.head? = some 'D' := by
  have hfirst : "Duplicate id given: ".toList.head? = some 'D' := rfl
  change ("Duplicate id given: " ++ toString id).toList.head? = some 'D'
  rw [String.toList_append, List.head?_append, hfirst, Option.some_or]

theorem Otherwise.ne_duplicateId {message : String} (h : Otherwise message) (id : RuleId) :
    message ≠ duplicateId id := by
  intro heq
  obtain ⟨c, hc, hne⟩ := h
  rw [heq, head_duplicateId] at hc
  exact hne (Option.some.inj hc).symm

/-- All exceptions of a computation have messages of another kind. -/
def FailsOtherwise {α : Type} (x : Except String α) : Prop := ∀ e, x = .error e → Otherwise e

theorem failsOtherwise_ok {α : Type} (a : α) : FailsOtherwise (.ok a : Except String α) := by
  intro e h
  cases h

theorem failsOtherwise_error {α : Type} {e : String} (h : Otherwise e) :
    FailsOtherwise (.error e : Except String α) := by
  intro e' he
  exact Except.error.inj he ▸ h

theorem FailsOtherwise.bind {α β : Type} {x : Except String α} {f : α → Except String β}
    (hx : FailsOtherwise x) (hf : ∀ a, x = .ok a → FailsOtherwise (f a)) :
    FailsOtherwise (x >>= f) := by
  cases x with
  | error e => exact failsOtherwise_error (hx e rfl)
  | ok a => exact hf a rfl

theorem failsOtherwise_reject {p : Prop} [Decidable p] {message : String}
    (h : p → Otherwise message) : FailsOtherwise (reject p message) := by
  rw [reject]
  split_ifs with hp
  · exact failsOtherwise_error (h hp)
  · exact failsOtherwise_ok ()

theorem compileDraft_failsOtherwise (draft : Draft ρ) :
    FailsOtherwise (compileDraft host draft) := by
  have hinvalid : ∀ what : String, Otherwise ("Invalid regex '" ++ draft.ireg ++ "' for " ++
      ("rule " ++ toString draft.rule.id) ++ ": " ++ what) := by
    intro what
    have hfirst : Otherwise "Invalid regex '" := ⟨'I', by decide, by decide⟩
    exact (((hfirst.append _).append _).append _).append _ |>.append _
  rw [compileDraft]
  split_ifs with hempty
  · exact failsOtherwise_ok none
  · intro e he
    rw [compileRegex] at he
    cases hcompile : host.compile draft.ireg with
    | error what =>
      simp only [hcompile, Except.map, Except.error.injEq] at he
      exact he ▸ hinvalid what
    | ok r =>
      simp only [hcompile] at he
      split_ifs at he
      · simp only [Except.map, Except.error.injEq] at he
        exact he ▸ hinvalid _
      · simp [Except.map] at he

theorem checkGroups_failsOtherwise (registered : StringSet) (ex : Rule ρ) :
    FailsOtherwise (checkGroups registered ex) := by
  rw [checkGroups]
  split
  · have hfirst : Otherwise "Invalid group '" := ⟨'I', by decide, by decide⟩
    exact failsOtherwise_error (((hfirst.append _).append _).append _)
  · exact failsOtherwise_ok ()

theorem insertParents_failsOtherwise (ex : Rule ρ) (ids : List RuleId) (rules : RuleCfg ρ) :
    FailsOtherwise (insertParents ex ids rules) := by
  induction ids generalizing rules with
  | nil => exact failsOtherwise_ok rules
  | cons id ids ih =>
    rw [insertParents]
    cases insertBelow ex id rules with
    | none =>
      have hfirst : Otherwise "Invalid rule trigger '" := ⟨'I', by decide, by decide⟩
      exact failsOtherwise_error ((((hfirst.append _).append _).append _).append _)
    | some middle => exact ih middle

theorem insertNormally_failsOtherwise (ex : Rule ρ) (rules : RuleCfg ρ) :
    FailsOtherwise (insertNormally ex rules) := by
  rw [insertNormally]
  split_ifs
  · exact failsOtherwise_ok _
  · exact failsOtherwise_ok _
  · exact insertParents_failsOtherwise ex _ rules

theorem insertUnless_failsOtherwise (ex : Rule ρ) (unlessId : RuleId) (rules : RuleCfg ρ) :
    FailsOtherwise (insertUnless ex unlessId rules) := by
  rw [insertUnless]
  split_ifs
  · exact failsOtherwise_ok rules
  · cases insertBelow ex unlessId rules with
    | none =>
      have hfirst : Otherwise "Invalid unless_rule trigger '" := ⟨'I', by decide, by decide⟩
      exact failsOtherwise_error ((((hfirst.append _).append _).append _).append _)
    | some middle => exact failsOtherwise_ok middle

/-- A draft whose id is new is rejected for other reasons only. -/
theorem checkDraft_failsOtherwise {draft : Draft ρ} (h : ¬ rules.hasRule draft.rule.id) :
    FailsOtherwise (checkDraft host rules draft) := by
  have hinvalid : ∀ kind text : String, Otherwise kind →
      Otherwise (kind ++ text ++ "' for rule " ++ toString draft.rule.id) :=
    fun kind text hkind => ((hkind.append _).append _).append _
  rw [checkDraft]
  refine .bind (failsOtherwise_reject fun _ => ⟨'N', by decide, by decide⟩) fun _ _ => ?_
  refine .bind (failsOtherwise_reject fun hrule => absurd hrule h) fun _ _ => ?_
  refine .bind (failsOtherwise_reject fun _ => .append ⟨'N', by decide, by decide⟩ _) fun _ _ => ?_
  refine .bind (failsOtherwise_reject fun _ => .append ⟨'i', by decide, by decide⟩ _) fun _ _ => ?_
  refine .bind (failsOtherwise_reject fun _ => .append ⟨'s', by decide, by decide⟩ _) fun _ _ => ?_
  refine .bind (failsOtherwise_reject fun _ => .append ⟨'N', by decide, by decide⟩ _) fun _ _ => ?_
  refine .bind (failsOtherwise_reject fun _ => .append ⟨'u', by decide, by decide⟩ _) fun _ _ => ?_
  refine .bind (compileDraft_failsOtherwise draft) fun _ _ => ?_
  refine .bind (failsOtherwise_reject fun _ => hinvalid _ _ ⟨'I', by decide, by decide⟩) fun _ _ => ?_
  refine .bind (failsOtherwise_reject fun _ => hinvalid _ _ ⟨'I', by decide, by decide⟩) fun _ _ => ?_
  refine .bind (checkGroups_failsOtherwise _ _) fun _ _ => ?_
  refine .bind (failsOtherwise_reject fun _ => ?_) fun _ _ => failsOtherwise_ok _
  exact (Otherwise.append ⟨'I', by decide, by decide⟩ _ |>.append _).append _

/-- A rule node is rejected as a duplicate exactly if its id has been accepted before. -/
theorem Registered.duplicate_iff (h : Registered rules accepted) {node : XMLNode}
    (name : node.name = "rule") {draft : Draft ρ}
    (hdraft : parseDraft rules.interventions node = .ok draft) :
    parseNode host rules node = .error (duplicateId draft.rule.id) ↔
      ∃ p ∈ accepted, p.2.id = draft.rule.id := by
  have hread : parseNode host rules node = checkDraft host rules draft >>= fun ex =>
      insertNormally ex rules >>= fun rules => insertUnless ex draft.unlessId rules := by
    simp only [parseNode, name, parseRule, hdraft]
    rfl
  rw [hread]
  constructor
  · intro herror
    by_contra hnone
    rw [← h.hasRule_iff] at hnone
    have hcheck : FailsOtherwise (checkDraft host rules draft) := checkDraft_failsOtherwise hnone
    have hfails := hcheck.bind fun ex _ =>
      (insertNormally_failsOtherwise ex rules).bind fun rules' _ =>
        insertUnless_failsOtherwise ex draft.unlessId rules'
    exact (hfails _ herror).ne_duplicateId _ rfl
  · rintro ⟨p, hp, hid⟩
    have hne : draft.rule.id ≠ 0 := hid ▸ h.id_ne p hp
    have hrule : rules.hasRule draft.rule.id := h.hasRule_iff.mpr ⟨p, hp, hid⟩
    have hcheck : checkDraft host rules draft = .error (duplicateId draft.rule.id) := by
      rw [checkDraft, reject, if_neg hne, reject, if_pos hrule]
      rfl
    rw [hcheck]
    rfl

/-- Whatever files and further nodes were accepted: the accepted rules have different ids, every
occurrence of a rule is a copy of one of them, two with the same id of the same one, and every
accepted rule occurs. A further rule node is a duplicate exactly if its id is among them. -/
theorem one_id_one_rule {roots nodes : List XMLNode} {rules' : RuleCfg ρ}
    (h : parseFiles host roots = .ok rules)
    (hnodes : nodes.foldlM (parseNode host) rules = .ok rules') :
    ∃ accepted, Reads host (roots.flatMap XMLNode.children ++ nodes) rules' accepted ∧
      accepted.map Prod.fst =
        (roots.flatMap XMLNode.children ++ nodes).filter (·.name = "rule") ∧
      (accepted.map (·.2.id)).Nodup ∧
      (∀ v ∈ rules'.views, ∃ p ∈ accepted, v.1 = p.2 ∧
        ∀ w ∈ rules'.views, w.1.id = v.1.id → w.1 = p.2) ∧
      (∀ p ∈ accepted, ∃ v ∈ rules'.views, v.1 = p.2) ∧
      ∀ node (draft : Draft ρ), node.name = "rule" →
        parseDraft rules'.interventions node = .ok draft →
        (parseNode host rules' node = .error (duplicateId draft.rule.id) ↔
          ∃ p ∈ accepted, p.2.id = draft.rule.id) := by
  obtain ⟨accepted, hreads⟩ := reads_of_parseFiles h hnodes
  have hreg := hreads.registered
  refine ⟨accepted, hreads, hreads.map_fst, hreg.nodup, ?_, hreg.occurs, ?_⟩
  · intro v hv
    obtain ⟨p, hp, hvp⟩ := hreg.stems v hv
    refine ⟨p, hp, hvp, ?_⟩
    intro w hw hid
    obtain ⟨q, hq, hwq⟩ := hreg.stems w hw
    rw [hwq, hreg.eq_of_id hq hp (by rw [← hwq, hid, hvp])]
  · intro node draft name hdraft
    exact hreg.duplicate_iff name hdraft

end Rejected

section Witness

/-- Two more rules behind those of a file, one of them below another one. -/
def moreRules : List XMLNode := [plainRule "5" ["1"], plainRule "6" []]

/-- The rules of a file and of two more nodes. Rule 3 occurs twice, and no further one may have its
id. -/
theorem one_id_one_rule_copies : ∃ rules rules' accepted,
    parseFiles plainHost [copiesFile] = .ok rules ∧
      moreRules.foldlM (parseNode plainHost) rules = .ok rules' ∧
      Reads plainHost (copiesFile.children ++ moreRules) rules' accepted ∧
      accepted.length = 6 ∧ (accepted.map (·.2.id)).Nodup ∧
      (∀ v ∈ rules'.views, ∃ p ∈ accepted, v.1 = p.2 ∧
        ∀ w ∈ rules'.views, w.1.id = v.1.id → w.1 = p.2) ∧
      (∀ p ∈ accepted, ∃ v ∈ rules'.views, v.1 = p.2) ∧
      parseNode plainHost rules' (plainRule "3" []) = .error (duplicateId 3) := by
  have hrules := @plainRules_eq [copiesFile] (by decide +kernel)
  have hmore : (moreRules.foldlM (parseNode plainHost) (plainRules [copiesFile])).map
      (fun rules' => (decide (∃ v ∈ rules'.views, v.1.id = 3),
        (parseDraft rules'.interventions (plainRule "3" [])).map
          fun draft : Draft PlainRegex => draft.rule.id)) =
          .ok (true, .ok 3) := by decide +kernel
  cases hrules' : moreRules.foldlM (parseNode plainHost) (plainRules [copiesFile]) with
  | error what => simp [hrules', Except.map] at hmore
  | ok rules' =>
    simp only [hrules', Except.map, Except.ok.injEq, Prod.mk.injEq, decide_eq_true_eq] at hmore
    obtain ⟨⟨v, hv, hid⟩, hdraft⟩ := hmore
    obtain ⟨accepted, hreads, hfst, hnodup, hstems, hoccurs, hduplicate⟩ :=
      one_id_one_rule hrules hrules'
    rw [List.flatMap_singleton] at hreads hfst
    have hlength : accepted.length = 6 := by
      rw [← List.length_map Prod.fst, hfst]
      decide
    refine ⟨_, rules', accepted, hrules, hrules', hreads, hlength, hnodup, hstems, hoccurs, ?_⟩
    cases hparsed : parseDraft (ρ := PlainRegex) rules'.interventions (plainRule "3" []) with
    | error what => simp [hparsed] at hdraft
    | ok draft =>
      simp only [hparsed, Except.ok.injEq] at hdraft
      obtain ⟨p, hp, hvp, -⟩ := hstems v hv
      have hfound : ∃ p ∈ accepted, p.2.id = draft.rule.id := ⟨p, hp, by rw [← hvp, hid, hdraft]⟩
      rw [← hdraft]
      exact (hduplicate _ draft rfl hparsed).mpr hfound

end Witness

end Ctguard
