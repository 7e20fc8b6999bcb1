import Ctguard.Messages
import Ctguard.RoseForest
import Std.Data.ExtTreeMap
import Std.Data.ExtTreeSet

/-!
# Events and rules of the research daemon

Maps and sets of the program are ordered tree maps and sets. A rule is kept without
the rules below it: a forest of rules carries them. What the standard library provides
is a parameter: the regular expressions, whose engine compiles a pattern or refuses it,
and the text of a time stamp. A match is the list of its sub-matches behind the first,
one for each group of the pattern, where a group that took no part is empty.
-/

namespace Ctguard

abbrev Priority := UInt16
abbrev RuleId := UInt32
abbrev StringMap := Std.ExtTreeMap String String
abbrev StringSet := Std.ExtTreeSet String

/-- The services of the standard library, over compiled expressions of type `ρ`. -/
structure Host (ρ : Type) where
  compile : String → Except String ρ
  markCount : ρ → ℕ
  search : ρ → String → Option (List String)
  fullMatch : ρ → String → Option (List String)
  formatTime : ℤ → String
  length_search : ∀ {r s ms}, search r s = some ms → ms.length = markCount r
  length_fullMatch : ∀ {r s ms}, fullMatch r s = some ms → ms.length = markCount r

structure InterventionRule where
  name : String := ""
  field : String := ""
  ignoreEmptyField : Bool := false
  deriving DecidableEq, Repr

structure ActivationGroup where
  time : UInt16 := 0
  rate : UInt16 := 0
  groupName : String := ""
  reset : Bool := false
  deriving DecidableEq, Repr

structure UnlessRule where
  id : RuleId := 0
  timeout : UInt16 := 0
  deriving DecidableEq, Repr

inductive RuleMatch where
  | exact
  | regex
  | empty
  deriving DecidableEq, Repr

abbrev TriggerMap := Std.ExtTreeMap String (RuleMatch × String)

/-- A rule without its children. -/
structure Rule (ρ : Type) where
  id : RuleId := 0
  parentIds : List RuleId := []
  priority : Priority := -1
  alwaysAlert : Bool := false
  description : String := ""
  groups : StringSet := ∅
  reg : Option ρ := none
  regexFields : List String := []
  triggerGroup : String := ""
  triggerFields : TriggerMap := ∅
  triggerTraits : TriggerMap := ∅
  activationGroup : ActivationGroup := {}
  sameField : String := ""
  unlessRule : UnlessRule := {}
  interventions : List InterventionRule := []

/-- Rules with everything below them. -/
abbrev RuleForest (ρ : Type) := List (RoseTree (Rule ρ))

structure Format (ρ : Type) where
  name : String
  reg : ρ
  fields : List String

structure RuleCfg (ρ : Type) where
  stdRules : RuleForest ρ := []
  groupRules : RuleForest ρ := []
  groups : StringSet := ∅
  formats : List (Format ρ) := []
  interventions : StringSet := ∅

structure Event where
  logstr : String := ""
  description : String := ""
  controlMessage : Bool := false
  alwaysAlert : Bool := false
  fields : StringMap := ∅
  traits : StringMap := ∅
  groups : StringSet := ∅
  priority : Priority := 0
  ruleId : RuleId := 0
  interventions : List InterventionRule := []
  deriving DecidableEq

/-- The state kept for one rule: the stored events with their arrival times, and the
pending unless-alert, which is armed while `unlessTriggered` is not zero. -/
structure RuleState where
  mevents : List (ℤ × Event) := []
  unlessTriggered : ℤ := 0
  unlessTimeout : UInt16 := 0
  unlessEvent : Event := {}
  deriving DecidableEq

abbrev RulesState := Std.ExtTreeMap RuleId RuleState

variable {ρ : Type}

/-- The constructor of an event from a received message. -/
def Event.ofSource (host : Host ρ) (se : SourceEvent) : Event where
  logstr := se.message
  controlMessage := se.controlMessage
  traits := Std.ExtTreeMap.ofList
    [("hostname", se.hostname), ("source_program", se.sourceProgram),
      ("source_domain", se.sourceDomain),
      ("control", if se.controlMessage then "true" else "false"),
      ("time_scanned", host.formatTime se.timeScanned),
      ("time_send", host.formatTime se.timeSend)]

def Event.addGroups (ev : Event) (input : StringSet) : Event :=
  { ev with groups := ev.groups ∪ input }

/-- `event::update`, the event that a pending unless-alert will raise. -/
def Event.update (ev : Event) (rl : Rule ρ) : Event :=
  { ev with priority := rl.priority, ruleId := rl.id, description := rl.description }.addGroups
    rl.groups

/-- A rule that waits for another rule. -/
def Rule.HasUnless (rl : Rule ρ) : Prop := rl.unlessRule.id ≠ 0

instance (rl : Rule ρ) : Decidable rl.HasUnless := inferInstanceAs (Decidable (_ ≠ _))

/-- A rule that counts the events of a group. -/
def Rule.HasActivation (rl : Rule ρ) : Prop := rl.activationGroup.groupName ≠ ""

instance (rl : Rule ρ) : Decidable rl.HasActivation := inferInstanceAs (Decidable (_ ≠ _))

end Ctguard
