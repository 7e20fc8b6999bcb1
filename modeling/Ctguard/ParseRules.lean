import Ctguard.Rule
import Ctguard.Text

/-!
# Reading rule files

`parse_rules` reads the nodes of a rule file in order. A rule is read from the
attributes and child nodes of its node, checked against what has been read before, and
put into the forests: behind the group rules if it is triggered or activated by a
group, behind the standard rules if it has no parents, and else below the first
occurrence of each of its parents. A rule with an unless rule is also put below that.
Several files extend one configuration. An error is the text of the exception.
-/

namespace Ctguard

/-- A node of a parsed document. -/
structure XMLNode where
  name : String
  attributes : List (String × String) := []
  value : String := ""
  children : List XMLNode := []

variable {ρ : Type}

/-- A check that throws. -/
def reject (p : Prop) [Decidable p] (message : String) : Except String Unit :=
  if p then .error message else .ok ()

@[simp] theorem reject_eq_ok {p : Prop} [Decidable p] {message : String} {u : Unit} :
    reject p message = .ok u ↔ ¬ p := by
  by_cases h : p <;> simp [reject, h]

def parseRuleMatch (value : String) : Except String RuleMatch :=
  if value = "exact" then .ok .exact
  else if value = "regex" then .ok .regex
  else if value = "empty" then .ok .empty
  else .error "Invalid rule_match value"

def invalidAttribute {α : Type} (kind : String) (attr : String × String) : Except String α :=
  .error ("Invalid attribute for " ++ kind ++ " node: '" ++ attr.1 ++ "'")

def noAttributes (kind : String) (node : XMLNode) : Except String Unit :=
  match node.attributes with
  | [] => .ok ()
  | attr :: _ => invalidAttribute kind attr

/-- The trimmed, non-empty text of a `group` or `intervention` node. -/
def parseNameNode (kind : String) (node : XMLNode) : Except String String := do
  noAttributes kind node
  match node.children with
  | [] => pure ()
  | sub :: _ => throw ("Invalid child for " ++ kind ++ " node: '" ++ sub.name ++ "'")
  reject (trim node.value = "") ("Invalid empty " ++ kind ++ " node")
  return trim node.value

section Nodes

variable (host : Host ρ)

/-- Compiles an expression that has one group for each field. -/
def compileRegex (owner ireg : String) (fields : List String) : Except String ρ :=
  let invalid (what : String) : Except String ρ :=
    .error ("Invalid regex '" ++ ireg ++ "' for " ++ owner ++ ": " ++ what)
  match host.compile ireg with
  | .error what => invalid what
  | .ok r =>
    if host.markCount r ≠ fields.length then
      invalid ("Number of regex fields mismatch (" ++ toString (host.markCount r) ++ " != " ++
        toString fields.length ++ ")")
    else .ok r

def parseFormat (node : XMLNode) : Except String (Format ρ) := do
  let name ← node.attributes.foldlM (fun (_ : String) attr =>
    if attr.1 = "name" then pure attr.2 else invalidAttribute "format" attr) ""
  let (ireg, fields) ← node.children.foldlM (fun (ireg, fields) sub =>
    if sub.name = "regex" then do
      noAttributes "format" sub
      return (ireg ++ sub.value, fields)
    else if sub.name = "fields" then do
      noAttributes "fields" sub
      return (ireg, fields ++ splitList sub.value)
    else throw ("Unsupported format node child: " ++ sub.name)) ("", ([] : List String))
  reject (name = "") "No name given for format"
  reject (ireg = "") ("No regex given for format '" ++ name ++ "'")
  let reg ← compileRegex host ("format '" ++ name ++ "'") ireg fields
  return ⟨name, reg, fields⟩

/-- A rule while its node is read. -/
structure Draft (ρ : Type) where
  rule : Rule ρ := {}
  unlessId : RuleId := 0
  ireg : String := ""

def parseRuleAttribute (ex : Rule ρ) (attr : String × String) : Except String (Rule ρ) :=
  if attr.1 = "id" then do
    let id ← parseIntegral (2 ^ 32 - 1) attr.1 attr.2
    return { ex with id := .ofNat id }
  else if attr.1 = "priority" then do
    let priority ← parseIntegral (2 ^ 16 - 1) attr.1 attr.2
    return { ex with priority := .ofNat priority }
  else if attr.1 = "always_alert" then
    match libsParseBool attr.2 with
    | .error what =>
      .error ("Invalid attribute value '" ++ attr.2 ++ "' for '" ++ attr.1 ++ "': " ++ what)
    | .ok b => .ok { ex with alwaysAlert := b }
  else invalidAttribute "rule" attr

/-- The ids listed by an `if_rule` node. -/
def parseIfRule (node : XMLNode) : Except String (List RuleId) :=
  match (splitList node.value).mapM (libsParseIntegral (2 ^ 32 - 1)) with
  | .error what => .error ("Invalid if_rule setting '" ++ node.value ++ "': " ++ what)
  | .ok ids => .ok (ids.map UInt32.ofNat)

def parseUnlessRule (node : XMLNode) : Except String UnlessRule := do
  let timeout ← node.attributes.foldlM (fun (_ : ℕ) attr =>
    if attr.1 = "timeout" then parseIntegral (2 ^ 16 - 1) attr.1 attr.2
    else invalidAttribute "unless_rule" attr) 0
  let id ← parseIntegral (2 ^ 32 - 1) node.name node.value
  return { id := .ofNat id, timeout := .ofNat timeout }

/-- The condition of an `if_field` or `if_trait` node. -/
def parseEntry (kind : String) (id : RuleId) (node : XMLNode) :
    Except String (String × RuleMatch × String) := do
  let (name, rm) ← node.attributes.foldlM (fun (name, rm) attr =>
    if attr.1 = "name" then .ok (attr.2, rm)
    else if attr.1 = "match" then
      match parseRuleMatch attr.2 with
      | .error what => .error ("Invalid attribute match value '" ++ attr.2 ++ "' : " ++ what)
      | .ok rm => .ok (name, rm)
    else invalidAttribute kind attr) ("", RuleMatch.exact)
  reject (name = "") ("No name given for " ++ kind ++ " node in rule " ++ toString id)
  return (name, rm, node.value)

def parseActivationGroup (id : RuleId) (node : XMLNode) : Except String ActivationGroup := do
  let ag ← node.attributes.foldlM (fun (ag : ActivationGroup) attr =>
    if attr.1 = "time" then do
      let time ← parseIntegral (2 ^ 16 - 1) attr.1 attr.2
      return { ag with time := .ofNat time }
    else if attr.1 = "rate" then do
      let rate ← parseIntegral (2 ^ 16 - 1) attr.1 attr.2
      return { ag with rate := .ofNat rate }
    else if attr.1 = "reset" then do
      let reset ← parseBool attr.1 attr.2
      return { ag with reset := reset }
    else invalidAttribute "activation_group" attr) {}
  reject (ag.time = 0) ("No time given for activation_group node in rule " ++ toString id)
  reject (ag.rate = 0) ("No rate given for activation_group node in rule " ++ toString id)
  reject (ag.rate < 2) ("Invalid rate given for activation_group node in rule id " ++
    toString id ++ ": " ++ toString ag.rate)
  return { ag with groupName := node.value }

def parseIntervention (registered : StringSet) (id : RuleId) (node : XMLNode) :
    Except String InterventionRule := do
  let ir ← node.attributes.foldlM (fun (ir : InterventionRule) attr =>
    if attr.1 = "name" then .ok { ir with name := attr.2 }
    else if attr.1 = "field" then .ok { ir with field := attr.2 }
    else if attr.1 = "ignore_empty_field" then do
      let ignore ← parseBool attr.1 attr.2
      return { ir with ignoreEmptyField := ignore }
    else invalidAttribute "intervention" attr) {}
  reject (ir.name = "") ("No name given for intervention node in rule " ++ toString id)
  reject (ir.field = "") ("No field given for intervention node in rule " ++ toString id)
  reject (ir.name ∉ registered) ("Invalid intervention name '" ++ ir.name ++ "' for rule " ++
    toString id)
  return ir

/-- One child node of a rule. Of several elements of one kind, the map of conditions
keeps the first for a name, lists grow, and every other setting keeps the last. -/
def parseSubNode (registered : StringSet) (draft : Draft ρ) (node : XMLNode) :
    Except String (Draft ρ) :=
  let ex := draft.rule
  match node.name with
  | "regex" => do
    noAttributes "regex" node
    return { draft with ireg := draft.ireg ++ node.value }
  | "fields" => do
    noAttributes "fields" node
    return { draft with rule.regexFields := ex.regexFields ++ splitList node.value }
  | "description" => do
    noAttributes "description" node
    return { draft with rule.description := ex.description ++ node.value }
  | "if_rule" => do
    noAttributes "if_rule" node
    let ids ← parseIfRule node
    return { draft with rule.parentIds := ex.parentIds ++ ids }
  | "unless_rule" => do
    let ur ← parseUnlessRule node
    return { draft with unlessId := ur.id, rule.unlessRule := ur }
  | "group" => do
    noAttributes "group" node
    return { draft with rule.groups := ex.groups.insertMany (splitList node.value) }
  | "if_group" => do
    noAttributes "if_group" node
    return { draft with rule.triggerGroup := node.value }
  | "if_field" => do
    let cond ← parseEntry node.name ex.id node
    return { draft with rule.triggerFields := ex.triggerFields.insertIfNew cond.1 cond.2 }
  | "if_trait" => do
    let cond ← parseEntry node.name ex.id node
    return { draft with rule.triggerTraits := ex.triggerTraits.insertIfNew cond.1 cond.2 }
  | "activation_group" => do
    let ag ← parseActivationGroup ex.id node
    return { draft with rule.activationGroup := ag }
  | "same_field" => do
    noAttributes "same_field" node
    return { draft with rule.sameField := node.value }
  | "intervention" => do
    let ir ← parseIntervention registered ex.id node
    return { draft with rule.interventions := ex.interventions ++ [ir] }
  | name => throw ("Unsupported rule node child: " ++ name)

/-- The rule that a node describes, before it is checked. -/
def parseDraft (registered : StringSet) (node : XMLNode) : Except String (Draft ρ) := do
  let ex ← node.attributes.foldlM parseRuleAttribute ({} : Rule ρ)
  node.children.foldlM (parseSubNode registered) { rule := ex }

def findRule (rules : RuleForest ρ) (id : RuleId) : Option (RoseTree (Rule ρ)) :=
  RoseTree.forestFind? (·.id == id) rules

/-- Whether some occurrence of a rule with the id exists. -/
def RuleCfg.hasRule (rules : RuleCfg ρ) (id : RuleId) : Prop :=
  (findRule rules.stdRules id).isSome ∨ (findRule rules.groupRules id).isSome

instance (rules : RuleCfg ρ) (id : RuleId) : Decidable (rules.hasRule id) :=
  inferInstanceAs (Decidable (_ ∨ _))

/-- The expression of a rule, if its node has a non-empty one. -/
def compileDraft (draft : Draft ρ) : Except String (Option ρ) :=
  if draft.ireg = "" then .ok none
  else (compileRegex host ("rule " ++ toString draft.rule.id) draft.ireg draft.rule.regexFields).map
    some

def checkGroups (registered : StringSet) (ex : Rule ρ) : Except String Unit :=
  match ex.groups.toList.find? (· ∉ registered) with
  | some g => .error ("Invalid group '" ++ g ++ "' in rule " ++ toString ex.id)
  | none => .ok ()

/-- The checks for a valid rule; the rule gets its compiled expression here. -/
def checkDraft (rules : RuleCfg ρ) (draft : Draft ρ) : Except String (Rule ρ) := do
  let ex := draft.rule
  let id := toString ex.id
  reject (ex.id = 0) "No id given"
  reject (rules.hasRule ex.id) ("Duplicate id given: " ++ id)
  reject (ex.priority = -1) ("No priority given for rule " ++ id)
  reject (ex.parentIds ≠ [] ∧ ex.triggerGroup ≠ "")
    ("if_rule and if_group are not supported together in rule " ++ id)
  reject (ex.sameField ≠ "" ∧ ¬ ex.HasActivation)
    ("same_field only works with activation_group in rule " ++ id)
  reject (ex.HasUnless ∧ ¬ rules.hasRule ex.unlessRule.id) ("No such unless_rule in rule " ++ id)
  reject (ex.HasUnless ∧ ex.parentIds = []) ("unless_rule only works with if_rule in rule " ++ id)
  let reg ← compileDraft host draft
  reject (ex.triggerGroup ≠ "" ∧ ex.triggerGroup ∉ rules.groups ∧ ex.triggerGroup ≠ "!ALWAYS")
    ("Invalid trigger group '" ++ ex.triggerGroup ++ "' for rule " ++ id)
  reject (ex.HasActivation ∧ ex.activationGroup.groupName ∉ rules.groups)
    ("Invalid activation group '" ++ ex.activationGroup.groupName ++ "' for rule " ++ id)
  checkGroups rules.groups ex
  reject (ex.id ∈ ex.parentIds) ("Invalid if_rule id '" ++ id ++ "' in rule " ++ id)
  return { ex with reg := reg }

/-- Appends a rule below the occurrence that `find_rule` returns for the id, looked up
in the standard rules first. -/
def insertBelow (ex : Rule ρ) (id : RuleId) (rules : RuleCfg ρ) : Option (RuleCfg ρ) :=
  match RoseTree.forestAppendBelow (·.id == id) ex rules.stdRules with
  | some std => some { rules with stdRules := std }
  | none => (RoseTree.forestAppendBelow (·.id == id) ex rules.groupRules).map fun group =>
      { rules with groupRules := group }

def insertParents (ex : Rule ρ) : List RuleId → RuleCfg ρ → Except String (RuleCfg ρ)
  | [], rules => .ok rules
  | parent :: parents, rules =>
    match insertBelow ex parent rules with
    | none => .error ("Invalid rule trigger '" ++ toString parent ++ "' for rule " ++
        toString ex.id ++ ": no such rule id")
    | some rules => insertParents ex parents rules

/-- A rule that is checked for every event, behind the standard rules. -/
def Rule.Grouped (rl : Rule ρ) : Prop := rl.triggerGroup ≠ "" ∨ rl.HasActivation

instance (rl : Rule ρ) : Decidable rl.Grouped := inferInstanceAs (Decidable (_ ∨ _))

def insertNormally (ex : Rule ρ) (rules : RuleCfg ρ) : Except String (RuleCfg ρ) :=
  if ex.Grouped then .ok { rules with groupRules := rules.groupRules ++ [⟨ex, []⟩] }
  else if ex.parentIds = [] then .ok { rules with stdRules := rules.stdRules ++ [⟨ex, []⟩] }
  else insertParents ex ex.parentIds rules

def insertUnless (ex : Rule ρ) (unlessId : RuleId) (rules : RuleCfg ρ) :
    Except String (RuleCfg ρ) :=
  if unlessId = 0 then .ok rules
  else
    match insertBelow ex unlessId rules with
    | none => .error ("Invalid unless_rule trigger '" ++ toString unlessId ++ "' for rule " ++
        toString ex.id ++ ": no such rule id")
    | some rules => .ok rules

def parseRule (rules : RuleCfg ρ) (node : XMLNode) : Except String (RuleCfg ρ) := do
  let draft ← parseDraft rules.interventions node
  let ex ← checkDraft host rules draft
  let rules ← insertNormally ex rules
  insertUnless ex draft.unlessId rules

def parseNode (rules : RuleCfg ρ) (node : XMLNode) : Except String (RuleCfg ρ) :=
  match node.name with
  | "group" => do
    let v ← parseNameNode "group" node
    reject (v.toList.head? = some '!') ("Invalid reserved group node '" ++ v ++ "'")
    return { rules with groups := rules.groups.insert v }
  | "intervention" => do
    let v ← parseNameNode "intervention" node
    return { rules with interventions := rules.interventions.insert v }
  | "format" => do
    let f ← parseFormat host node
    return { rules with formats := rules.formats ++ [f] }
  | "rule" => parseRule host rules node
  | name => throw ("Unexpected node, got '" ++ name ++ "'")

/-- `parse_rules` for the root node of one file. -/
def parseRules (rules : RuleCfg ρ) (root : XMLNode) : Except String (RuleCfg ρ) := do
  reject (root.name ≠ "rule_group")
    ("Expected root 'rule_group' node, got '" ++ root.name ++ "'")
  noAttributes "root" root
  root.children.foldlM (parseNode host) rules

/-- The rule files of one configuration, read one after the other. -/
def parseFiles (roots : List XMLNode) : Except String (RuleCfg ρ) :=
  roots.foldlM (parseRules host) {}

end Nodes

end Ctguard
