import Ctguard.Rule
import Mathlib.Data.List.Sort

/-!
# Processing one event

`process_log` extracts fields with the first matching format and walks through the
rules, first the standard rules and then the group rules. All clock readings of one
call give the same `now`. An exception ends a call and leaves the states of the rules
as they are at that moment. Besides its result, a walk records the checks and the
chosen rules in order, as the program reports them with `verbose`.
-/

namespace Ctguard

/-- Why a call does not return: an exception, or an access outside of a vector. -/
inductive Fault where
  | libException (what : String)
  | regexError (what : String)
  | outOfRange (index : ℕ)
  deriving DecidableEq, Repr

abbrev Captures := List (String × String)

/-- The result of `check_rule`: whether the rule matches, and what it extracted. -/
structure Checked where
  matched : Bool := false
  fields : Captures := []
  traits : Captures := []
  deriving DecidableEq, Repr

variable {ρ : Type}

section CheckRule

/-- `std::multimap::emplace`: behind all entries that are not later. -/
def emplaceEvent (now : ℤ) (ev : Event) (saved : List (ℤ × Event)) : List (ℤ × Event) :=
  saved.orderedInsert (fun a b => a.1 < b.1) (now, ev)

/-- The removal of entries that are too old, up to the first that is not. -/
def dropExpired (time : UInt16) (now : ℤ) (saved : List (ℤ × Event)) : List (ℤ × Event) :=
  saved.dropWhile fun e => e.1 + time.toNat < now

/-- The log strings of stored events, one a line. -/
def triggerLogs (saved : List (ℤ × Event)) : String :=
  saved.foldl (fun s e => s ++ e.2.logstr ++ "\n") ""

/-- The stored events whose field has the value, as the counting loop selects them. -/
def sameFieldEvents (field value : String) (saved : List (ℤ × Event)) : List (ℤ × Event) :=
  saved.filter fun e => e.2.fields[field]? = some value

/-- The counter of the loop over the stored events has 16 bits. -/
def sameRate (same : List (ℤ × Event)) : UInt16 := same.foldl (fun n _ => n + 1) 0

/-- A rule with an unless rule only arms and cancels its pending alert. -/
def checkUnless (now : ℤ) (ev : Event) (rl : Rule ρ) (st : RulesState) :
    RulesState × Except Fault Checked :=
  let state := st.getD rl.id {}
  if ev.ruleId ∈ rl.parentIds then
    (st.insert rl.id { state with
      unlessTriggered := now, unlessTimeout := rl.unlessRule.timeout,
      unlessEvent := ev.update rl }, .ok {})
  else if ev.ruleId = rl.unlessRule.id then
    (st.insert rl.id { state with unlessTriggered := 0 }, .ok {})
  else
    let parents := String.join (rl.parentIds.map fun i => toString i ++ " ")
    (st.insert rl.id state, .error (.libException
      ("Unknown child case: " ++ toString ev.ruleId ++ "(event) " ++ parents ++ "(parent) " ++
        toString rl.unlessRule.id ++ "(unless)")))

/-- What the activation part of `check_rule` finds out. -/
structure Activation where
  matchSomething : Bool := false
  isActive : Bool := false
  traits : Captures := []
  deriving DecidableEq, Repr

/-- Whether the stored events suffice, and the trait that lists them if they do. -/
def activeBy (ev : Event) (rl : Rule ρ) (saved : List (ℤ × Event)) : Bool × Captures :=
  if rl.activationGroup.rate.toNat ≤ saved.length then
    if rl.sameField = "" then (true, [("trigger_logs", triggerLogs saved)])
    else
      match ev.fields[rl.sameField]? with
      | none => (false, [])
      | some value =>
        let same := sameFieldEvents rl.sameField value saved
        if rl.activationGroup.rate ≤ sameRate same then
          (true, [("trigger_same_logs", triggerLogs same)])
        else (false, [])
  else (false, [])

/-- An event of the group is stored even if other conditions of the rule fail. A rule
without state so far neither removes nor counts. -/
def checkActivation (now : ℤ) (ev : Event) (rl : Rule ρ) (st : RulesState) :
    RulesState × Activation :=
  if rl.HasActivation then
    let found : Bool := rl.activationGroup.groupName ∈ ev.groups
    match st[rl.id]? with
    | none =>
      (if found then st.insert rl.id { mevents := emplaceEvent now ev [] } else st,
        { matchSomething := found })
    | some state =>
      let saved := if found then emplaceEvent now ev state.mevents else state.mevents
      let saved := dropExpired rl.activationGroup.time now saved
      let active := activeBy ev rl saved
      (st.insert rl.id { state with mevents := saved },
        { matchSomething := found, isActive := active.1, traits := active.2 })
  else (st, { isActive := true })

variable (host : Host ρ)

/-- One field or trait condition. The loop over the entries of the event finds at most
the one with the name; without it, only a condition of kind `empty` is met. -/
def entryMatches (entries : StringMap) (cond : String × RuleMatch × String) :
    Except Fault Bool :=
  match entries[cond.1]?, cond.2.1 with
  | none, kind => .ok (kind = .empty)
  | some value, .exact => .ok (value = cond.2.2)
  | some value, .empty => .ok (value = "")
  | some value, .regex =>
    match host.compile cond.2.2 with
    | .error what => .error (.regexError what)
    | .ok r => .ok (host.search r value).isSome

/-- The conditions in the order of their names, up to the first that is not met. -/
def entriesMatch (entries : StringMap) : List (String × RuleMatch × String) → Except Fault Bool
  | [] => .ok true
  | cond :: conds =>
    match entryMatches host entries cond with
    | .error f => .error f
    | .ok false => .ok false
    | .ok true => entriesMatch entries conds

/-- The non-empty sub-matches under the names of the fields, from position `i` on. -/
def captureFields (names : List String) : ℕ → List String → Except Fault Captures
  | _, [] => .ok []
  | i, m :: ms =>
    if m = "" then captureFields names (i + 1) ms
    else
      match names[i]? with
      | none => .error (.outOfRange i)
      | some name => (captureFields names (i + 1) ms).map ((name, m) :: ·)

def groupMatches (ev : Event) (rl : Rule ρ) : Bool :=
  rl.triggerGroup = "" ∨ rl.triggerGroup = "!ALWAYS" ∨ rl.triggerGroup ∈ ev.groups

/-- What the expression of a rule is applied to. -/
def Event.toMatch (ev : Event) : String := ev.fields["log"]?.getD ev.logstr

/-- The sub-matches of the rule's expression, none if it does not match. -/
def regexMatches (ev : Event) (rl : Rule ρ) : Option (List String) :=
  match rl.reg with
  | none => some []
  | some r => host.search r ev.toMatch

/-- The conditions behind the activation group: none if one of them is not met. -/
def checkConditions (ev : Event) (rl : Rule ρ) : Except Fault (Option Captures) :=
  if groupMatches ev rl = false then .ok none
  else
    match entriesMatch host ev.fields rl.triggerFields.toList with
    | .error f => .error f
    | .ok false => .ok none
    | .ok true =>
      match entriesMatch host ev.traits rl.triggerTraits.toList with
      | .error f => .error f
      | .ok false => .ok none
      | .ok true =>
        match regexMatches host ev rl with
        | none => .ok none
        | some ms => (captureFields rl.regexFields 0 ms).map some

/-- Whether the rule has a condition besides an activation group. -/
def Rule.hasCondition (rl : Rule ρ) : Bool :=
  rl.triggerGroup ≠ "" ∨ ¬ rl.triggerFields.isEmpty ∨ ¬ rl.triggerTraits.isEmpty ∨
    rl.reg.isSome ∨ rl.parentIds ≠ []

def checkRule (now : ℤ) (ev : Event) (rl : Rule ρ) (st : RulesState) :
    RulesState × Except Fault Checked :=
  if rl.HasUnless then checkUnless now ev rl st
  else
    let act := checkActivation now ev rl st
    (act.1, match checkConditions host ev rl with
      | .error f => .error f
      | .ok none => .ok { traits := act.2.traits }
      | .ok (some fields) => .ok {
          matched := (act.2.matchSomething || rl.hasCondition) && act.2.isActive
          fields := fields, traits := act.2.traits })

end CheckRule

/-- Writes of map entries in order. -/
def assign (m : StringMap) (kvs : Captures) : StringMap :=
  kvs.foldl (fun m kv => m.insert kv.1 kv.2) m

def updateEvent (ev : Event) (rl : Rule ρ) (checked : Checked) : Event :=
  { ev with
    description := rl.description
    alwaysAlert := rl.alwaysAlert
    groups := ev.groups ∪ rl.groups
    priority := rl.priority
    ruleId := rl.id
    interventions := rl.interventions
    fields := assign ev.fields checked.fields
    traits := assign ev.traits checked.traits }

/-- A resetting rule forgets the events it was activated by. -/
def updateState (st : RulesState) (rl : Rule ρ) (ev : Event) : RulesState :=
  if rl.HasActivation ∧ rl.activationGroup.reset = true then
    match st[rl.id]? with
    | none => st
    | some state =>
      if rl.sameField = "" then st.insert rl.id { state with mevents := [] }
      else
        match ev.fields[rl.sameField]? with
        | none => st
        | some value =>
          st.insert rl.id { state with
            mevents := state.mevents.filter fun e => e.2.fields[rl.sameField]? ≠ some value }
  else st

/-- What a walk does with the state of a rule: `check_rule` with the event as it is, or
the choice of the rule, with the event as it was and what the rule extracted. -/
inductive Act (ρ : Type) where
  | check (ev : Event) (rl : Rule ρ)
  | fit (ev : Event) (rl : Rule ρ) (checked : Checked)

structure Outcome (ρ α : Type) where
  state : RulesState
  trace : List (Act ρ)
  result : Except Fault α

/-- Goes on from a result, if there is one. -/
def Outcome.andThen {α β : Type} (o : Outcome ρ α) (next : α → RulesState → Outcome ρ β) :
    Outcome ρ β :=
  match o.result with
  | .error f => ⟨o.state, o.trace, .error f⟩
  | .ok a =>
    let o' := next a o.state
    ⟨o'.state, o.trace ++ o'.trace, o'.result⟩

section Walk

variable (host : Host ρ) (now : ℤ)

/-- A rule that matched, with its children and what it extracted. -/
abbrev Candidate (ρ : Type) := RoseTree (Rule ρ) × Checked

/-- The loop over the rules of one level, which collects those that match. -/
def checkSiblings (ev : Event) : RuleForest ρ → RulesState → Outcome ρ (List (Candidate ρ))
  | [], st => ⟨st, [], .ok []⟩
  | r :: rs, st =>
    match checkRule host now ev r.root st with
    | (st', .error f) => ⟨st', [.check ev r.root], .error f⟩
    | (st', .ok c) =>
      let more := checkSiblings ev rs st'
      ⟨more.state, .check ev r.root :: more.trace,
        more.result.map fun ms => if c.matched then (r, c) :: ms else ms⟩

/-- The running maximum over the matching rules. -/
structure Best (ρ : Type) where
  maxPriority : Priority := 0
  minId : RuleId := -1
  fit : Option (Candidate ρ) := none

def Best.step (b : Best ρ) (c : Candidate ρ) : Best ρ :=
  let rl := c.1.root
  if b.maxPriority < rl.priority ∨ (rl.priority = b.maxPriority ∧ rl.id < b.minId) then
    { maxPriority := rl.priority, minId := rl.id, fit := some c }
  else b

def pickFit (cs : List (Candidate ρ)) : Option (Candidate ρ) :=
  (cs.foldl Best.step ({} : Best ρ)).fit

def noFit : Fault := .libException "No fitting rule found !!THIS SHOULD NEVER HAPPEN!!"

/-- `check_top_rules` for forests of at most the given number of levels. -/
def checkLevels : ℕ → Event → RuleForest ρ → RulesState → Outcome ρ Event
  | 0, ev, _, st => ⟨st, [], .ok ev⟩
  | levels + 1, ev, rules, st =>
    (checkSiblings host now ev rules st).andThen fun matching st =>
      if matching = [] then ⟨st, [], .ok ev⟩
      else
        match pickFit matching with
        | none => ⟨st, [], .error noFit⟩
        | some (fit, checked) =>
          let ev' := updateEvent ev fit.root checked
          let below := checkLevels levels ev' fit.children (updateState st fit.root ev')
          ⟨below.state, .fit ev fit.root checked :: below.trace, below.result⟩

/-- The walk starts at the first level and goes down to the children of the rule that
is chosen; it cannot be longer than the forest is high. -/
def checkTopRules (ev : Event) (rules : RuleForest ρ) (st : RulesState) : Outcome ρ Event :=
  checkLevels host now (RoseTree.forestHeight rules) ev rules st

/-- The sub-matches of a format, empty ones too, as writes of fields. -/
def formatFields (names : List String) : ℕ → List String → Except Fault Captures
  | _, [] => .ok []
  | i, m :: ms =>
    match names[i]? with
    | none => .error (.outOfRange i)
    | some name => (formatFields names (i + 1) ms).map ((name, m) :: ·)

/-- `format_log`: the first format that matches the whole log string. -/
def formatLog (ev : Event) : List (Format ρ) → Except Fault Event
  | [] => .ok { ev with traits := ev.traits.insert "format" "unknown" }
  | f :: fs =>
    match host.fullMatch f.reg ev.logstr with
    | none => formatLog ev fs
    | some ms => (formatFields f.fields 0 ms).map fun fields =>
        { ev with fields := assign ev.fields fields, traits := ev.traits.insert "format" f.name }

def processLog (se : SourceEvent) (rules : RuleCfg ρ) (st : RulesState) : Outcome ρ Event :=
  match formatLog host (.ofSource host se) rules.formats with
  | .error f => ⟨st, [], .error f⟩
  | .ok ev =>
    (checkTopRules host now ev rules.stdRules st).andThen fun ev st =>
      checkTopRules host now ev rules.groupRules st

end Walk

end Ctguard
