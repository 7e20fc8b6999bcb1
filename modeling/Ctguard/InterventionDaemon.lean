import Ctguard.Messages
import Ctguard.Rule
import Ctguard.Text
import Ctguard.PlainHost
import Mathlib.Data.List.TakeWhile

/-!
# The intervention daemon

Which actions a configuration sets up, and what the daemon executes for the commands it
takes from its queue. A command is checked as a string with a length; the program that is
executed gets C strings, which end at the first zero byte.
-/

namespace Ctguard

/-- `libs::config::position`. -/
structure Position where
  lineNumber : UInt32
  lineIndent : UInt32
  deriving DecidableEq, Repr

def Position.text (p : Position) : String := toString p.lineNumber ++ ":" ++ toString p.lineIndent

/-- `config_option`, the values that are written for a key. -/
structure ConfigOption where
  key : String
  options : List String
  pos : Position
  deriving DecidableEq, Repr

/-- A `config_group` without the groups inside of it. -/
structure ConfigHead where
  name : String
  keyword : String
  pos : Position
  options : List ConfigOption := []
  deriving DecidableEq, Repr

abbrev ConfigGroup := RoseTree ConfigHead

/-- `libs::parse_second_duration`. The product has 32 bits. -/
def parseSecondDuration : List String → Except String UInt32
  | [number] => (libsParseIntegral (2 ^ 32 - 1) number).map UInt32.ofNat
  | [number, unit] =>
    match libsParseIntegral (2 ^ 32 - 1) number with
    | .error what => .error what
    | .ok n =>
      if unit = "s" then .ok (.ofNat n)
      else if unit = "m" then .ok (.ofNat n * 60)
      else if unit = "h" then .ok (.ofNat n * 60 * 60)
      else .error ("unknown timeunit '" ++ unit ++ "'")
  | options => .error ("can not parse duration from " ++ toString options.length ++ " arguments")

/-- The value of an option that takes one. -/
def ConfigOption.single (o : ConfigOption) : Except String String :=
  match o.options with
  | [value] => .ok value
  | options => .error ("Invalid number of arguments for configuration " ++ o.key ++
      " given: " ++ toString options.length)

structure InterventionAction where
  name : String
  command : String := ""
  user : String := ""
  group : String := ""
  regex : String := ""
  whitelist : List String := []
  commandTimeout : UInt32 := 30
  deriving DecidableEq, Repr

structure InterventionConfig where
  logPath : String := "/var/log/ctguard/intervention.log"
  inputPath : String := "/run/ctguard_intervention.sock"
  actions : List InterventionAction := []
  deriving DecidableEq, Repr

namespace InterventionConfig

variable {ρ : Type} (host : Host ρ)

/-- One option of the group `intervention`. -/
def applyOption (cfg : InterventionConfig) (o : ConfigOption) :
    Except String InterventionConfig :=
  if o.key = "input_path" then o.single.map fun value => { cfg with inputPath := value }
  else if o.key = "log_path" then o.single.map fun value => { cfg with logPath := value }
  else .error ("Invalid configuration option '" ++ o.key ++ "' in group research at " ++
    o.pos.text)

/-- One option of a group `action`. -/
def applyActionOption (action : InterventionAction) (o : ConfigOption) :
    Except String InterventionAction :=
  if o.key = "command" then o.single.map fun value => { action with command := value }
  else if o.key = "user" then o.single.map fun value => { action with user := value }
  else if o.key = "group" then o.single.map fun value => { action with group := value }
  else if o.key = "command_timeout" then
    match parseSecondDuration o.options with
    | .ok value => .ok { action with commandTimeout := value }
    | .error what => .error ("Invalid argument '" ++ o.options.headD "" ++
        "' for configuration " ++ o.key ++ " given: " ++ what)
  else if o.key = "regex" then
    match o.single with
    | .error what => .error what
    | .ok value =>
      match host.compile value with
      | .error what => .error ("Invalid regex '" ++ value ++ "'given: " ++ what)
      | .ok _ => .ok { action with regex := value }
  else if o.key = "whitelist" then .ok { action with whitelist := o.options }
  else .error ("Invalid configuration option '" ++ o.key ++ "' in group action at " ++
    o.pos.text)

/-- A group inside of the group `intervention`. -/
def parseAction (b : ConfigHead) : Except String InterventionAction :=
  if b.name = "action" then
    if b.keyword = "" then
      .error ("Empty key for configuration group '" ++ b.name ++ "' at " ++ b.pos.text)
    else
      match b.options.foldlM (applyActionOption host) { name := b.keyword } with
      | .error what => .error what
      | .ok action =>
        if action.command = "" then
          .error ("No command given for action '" ++ action.name ++ "'")
        else .ok action
  else .error ("Invalid configuration group '" ++ b.name ++ "' at " ++ b.pos.text)

def addAction (cfg : InterventionConfig) (b : ConfigGroup) : Except String InterventionConfig :=
  (parseAction host b.root).map fun action => { cfg with actions := cfg.actions ++ [action] }

/-- `parse_config`, for the groups that the parser found in the file. -/
def parse (groups : List ConfigGroup) : Except String InterventionConfig :=
  match groups.filter fun top => top.root.name = "intervention" with
  | [] => .error "No toplevel intervention configuration group found"
  | top :: more =>
    match top.root.options.foldlM applyOption {} with
    | .error what => .error what
    | .ok cfg =>
      match top.children.foldlM (addAction host) cfg with
      | .error what => .error what
      | .ok cfg =>
        match more with
        | [] => .ok cfg
        | again :: _ => .error ("Duplicate top level configgroup research found at " ++
            again.root.pos.text)

end InterventionConfig

/-- What a C function sees of a string: everything before the first zero byte. -/
def cString (s : String) : String := String.ofList (s.toList.takeWhile (· ≠ '\x00'))

/-- How the system lets a checked command proceed: the pipes or the fork fail, the child
gives up before `execv`, or it gets there. -/
inductive Spawn where
  | failed
  | gaveUp
  | reached
  deriving DecidableEq, Repr

/-- A command in the queue, and the answer of the system should it be run. -/
structure Received where
  icmd : InterventionCmd String
  kill : Bool := false
  spawn : Spawn := .reached
  deriving DecidableEq, Repr

/-- A call of `execv` for a command. -/
structure Execution where
  icmd : InterventionCmd String
  action : InterventionAction
  path : String
  argv : List String
  deriving DecidableEq, Repr

/-- `run_cmd`, as far as the call of `execv`. -/
def runCmd (action : InterventionAction) (icmd : InterventionCmd String) : Execution where
  icmd := icmd
  action := action
  path := cString action.command
  argv := [cString action.command, cString icmd.argument]

namespace InterventionConfig

variable {ρ : Type} (host : Host ρ)

/-- The first action with the name. -/
def findAction (cfg : InterventionConfig) (name : String) : Option InterventionAction :=
  cfg.actions.find? (·.name = name)

/-- The check of an argument against the expression and the whitelist of an action. -/
def passes (action : InterventionAction) (argument : String) : Bool :=
  match host.compile action.regex with
  | .error _ => false
  | .ok r => (host.fullMatch r argument).isSome && !action.whitelist.contains argument

/-- The action that a command runs, if it passes the checks. -/
def checked (cfg : InterventionConfig) (icmd : InterventionCmd String) :
    Option InterventionAction :=
  match cfg.findAction icmd.name with
  | none => none
  | some action => if passes host action icmd.argument then some action else none

/-- `processing_task` on the commands it takes. An exception ends it. -/
def processingTask (cfg : InterventionConfig) : List Received → List Execution
  | [] => []
  | r :: rs =>
    if r.kill then []
    else
      match checked host cfg r.icmd with
      | none => processingTask cfg rs
      | some action =>
        match r.spawn with
        | .failed => []
        | .gaveUp => processingTask cfg rs
        | .reached => runCmd action r.icmd :: processingTask cfg rs

/-- The task is still there after the command. -/
def GoesOn (cfg : InterventionConfig) (r : Received) : Prop :=
  r.kill = false ∧ ((checked host cfg r.icmd).isSome = true → r.spawn ≠ .failed)

/-- The command is taken, and run by the action. -/
structure Runs (cfg : InterventionConfig) (rs : List Received) (r : Received)
    (action : InterventionAction) : Prop where
  taken : ∃ pre post, rs = pre ++ r :: post ∧ ∀ q ∈ pre, GoesOn host cfg q
  noKill : r.kill = false
  checked : checked host cfg r.icmd = some action
  reached : r.spawn = .reached

/-- What is executed was checked: the action is the first of that name, and the argument
that the program gets matches its expression and is not in its whitelist. -/
def Execution.Proper (cfg : InterventionConfig) (e : Execution) : Prop :=
  cfg.findAction e.icmd.name = some e.action ∧
    ∃ argument, e.argv[1]? = some argument ∧
      (∃ r, host.compile e.action.regex = .ok r ∧ (host.fullMatch r argument).isSome = true) ∧
      argument ∉ e.action.whitelist

/-- An argument that goes on behind a zero byte would pass without what is behind it. -/
def ZeroBytesHideNothing (cfg : InterventionConfig) (rs : List Received) : Prop :=
  ∀ r action, Runs host cfg rs r action → '\x00' ∈ r.icmd.argument.toList →
    passes host action (cString r.icmd.argument) = true

variable {host} {cfg : InterventionConfig}

theorem Runs.cons {rs : List Received} {q r : Received} {action : InterventionAction}
    (h : Runs host cfg rs r action) (hq : GoesOn host cfg q) : Runs host cfg (q :: rs) r action := by
  obtain ⟨pre, post, rfl, hpre⟩ := h.taken
  refine ⟨⟨q :: pre, post, rfl, ?_⟩, h.noKill, h.checked, h.reached⟩
  intro q' hq'
  rcases List.mem_cons.mp hq' with rfl | hmem
  · exact hq
  · exact hpre q' hmem

theorem runs_head {rs : List Received} {r : Received} {action : InterventionAction}
    (hkill : r.kill = false) (hchecked : checked host cfg r.icmd = some action)
    (hreached : r.spawn = .reached) : Runs host cfg (r :: rs) r action :=
  ⟨⟨[], rs, rfl, by simp⟩, hkill, hchecked, hreached⟩

theorem runs_cons {rs : List Received} {q r : Received} {action : InterventionAction} :
    Runs host cfg (q :: rs) r action ↔
      (r = q ∧ q.kill = false ∧ checked host cfg q.icmd = some action ∧ q.spawn = .reached) ∨
        (GoesOn host cfg q ∧ Runs host cfg rs r action) := by
  constructor
  · intro h
    obtain ⟨pre, post, hsplit, hpre⟩ := h.taken
    cases pre with
    | nil =>
      obtain ⟨rfl, rfl⟩ := List.cons.inj hsplit
      exact .inl ⟨rfl, h.noKill, h.checked, h.reached⟩
    | cons q' pre =>
      obtain ⟨rfl, rfl⟩ := List.cons.inj hsplit
      right
      refine ⟨hpre q List.mem_cons_self, ⟨pre, post, rfl, ?_⟩, h.noKill, h.checked, h.reached⟩
      exact fun q' hq' => hpre q' (List.mem_cons_of_mem q hq')
  · rintro (⟨rfl, hkill, hchecked, hreached⟩ | ⟨hq, h⟩)
    · exact runs_head hkill hchecked hreached
    · exact h.cons hq

theorem mem_processingTask {rs : List Received} {e : Execution} :
    e ∈ processingTask host cfg rs ↔
      ∃ r action, Runs host cfg rs r action ∧ e = runCmd action r.icmd := by
  induction rs with
  | nil =>
    simp only [processingTask, List.not_mem_nil, false_iff]
    rintro ⟨r, action, h, -⟩
    obtain ⟨pre, post, hsplit, -⟩ := h.taken
    simp at hsplit
  | cons q rs ih =>
    simp only [runs_cons, processingTask]
    cases hkill : q.kill with
    | true => simp [GoesOn, hkill]
    | false =>
      cases hchecked : checked host cfg q.icmd with
      | none => simp [GoesOn, hkill, hchecked, ih]
      | some action =>
        cases hspawn : q.spawn with
        | failed => simp [GoesOn, hkill, hchecked, hspawn]
        | gaveUp => simp [GoesOn, hkill, hchecked, hspawn, ih]
        | reached =>
          simp only [GoesOn, hkill, hchecked, hspawn, Bool.false_eq_true, if_false,
            List.mem_cons, ih]
          constructor
          · rintro (rfl | ⟨r, action', h, rfl⟩)
            · exact ⟨q, action, .inl ⟨rfl, trivial, rfl, trivial⟩, rfl⟩
            · exact ⟨r, action', .inr ⟨⟨trivial, by simp⟩, h⟩, rfl⟩
          · rintro ⟨r, action', ⟨rfl, -, heq, -⟩ | ⟨-, h⟩, rfl⟩
            · obtain rfl := Option.some.inj heq
              exact .inl rfl
            · exact .inr ⟨r, action', h, rfl⟩

theorem passes_eq_true {action : InterventionAction} {argument : String} :
    passes host action argument = true ↔
      (∃ r, host.compile action.regex = .ok r ∧ (host.fullMatch r argument).isSome = true) ∧
        argument ∉ action.whitelist := by
  unfold passes
  cases host.compile action.regex with
  | error what => simp
  | ok r => simp

theorem checked_eq_some {icmd : InterventionCmd String} {action : InterventionAction} :
    checked host cfg icmd = some action ↔
      cfg.findAction icmd.name = some action ∧ passes host action icmd.argument = true := by
  unfold checked
  cases cfg.findAction icmd.name with
  | none => simp
  | some found =>
    simp only [Option.ite_none_right_eq_some, Option.some.injEq]
    constructor
    · rintro ⟨hpasses, rfl⟩
      exact ⟨rfl, hpasses⟩
    · rintro ⟨rfl, hpasses⟩
      exact ⟨hpasses, rfl⟩

theorem cString_eq_self {s : String} (h : '\x00' ∉ s.toList) : cString s = s := by
  rw [cString, List.takeWhile_eq_self_iff.mpr, String.ofList_toList]
  intro c hc
  have hne : c ≠ '\x00' := by
    rintro rfl
    exact h hc
  simpa using hne

/-- An execution is proper exactly if the C string passes the checks as well. -/
theorem proper_runCmd {rs : List Received} {r : Received} {action : InterventionAction}
    (h : Runs host cfg rs r action) :
    Execution.Proper host cfg (runCmd action r.icmd) ↔
      passes host action (cString r.icmd.argument) = true := by
  rw [passes_eq_true]
  constructor
  · rintro ⟨-, argument, harg, hmatch, hwhite⟩
    obtain rfl := Option.some.inj harg
    exact ⟨hmatch, hwhite⟩
  · rintro ⟨hmatch, hwhite⟩
    exact ⟨(checked_eq_some.mp h.checked).1, _, rfl, hmatch, hwhite⟩

/-- All that is executed was checked exactly if no zero byte hides a part that made an
argument pass. -/
theorem processingTask_proper_iff (host : Host ρ) (cfg : InterventionConfig)
    (rs : List Received) :
    (∀ e ∈ processingTask host cfg rs, Execution.Proper host cfg e) ↔
      ZeroBytesHideNothing host cfg rs := by
  constructor
  · intro h r action hruns hzero
    have hproper := h (runCmd action r.icmd) (mem_processingTask.mpr ⟨r, action, hruns, rfl⟩)
    exact (proper_runCmd hruns).mp hproper
  · intro h e he
    obtain ⟨r, action, hruns, rfl⟩ := mem_processingTask.mp he
    apply (proper_runCmd hruns).mpr
    by_cases hzero : '\x00' ∈ r.icmd.argument.toList
    · exact h r action hruns hzero
    · rw [cString_eq_self hzero]
      exact (checked_eq_some.mp hruns.checked).2

/-- A configuration with one action, which takes any argument but a whitelisted one. -/
def blockIpConfig : List ConfigGroup :=
  [⟨{ name := "intervention", keyword := "", pos := ⟨2, 0⟩ },
    [⟨{ name := "action", keyword := "block_ip", pos := ⟨4, 1⟩,
        options := [
          ⟨"command", ["/etc/ctguard/interventions/block_ip.sh"], ⟨5, 2⟩⟩,
          ⟨"command_timeout", ["2", "s"], ⟨6, 2⟩⟩,
          ⟨"regex", ["(.*)"], ⟨7, 2⟩⟩,
          ⟨"whitelist", ["127.0.0.1"], ⟨8, 2⟩⟩] }, []⟩]⟩]

theorem whitelisted_executed :
    ¬ ∀ groups cfg, parse plainHost groups = .ok cfg → ∀ rs,
      ∀ e ∈ processingTask plainHost cfg rs, Execution.Proper plainHost cfg e := by
  intro h
  have hparse : ∃ cfg, parse plainHost blockIpConfig = .ok cfg ∧
      ∃ e ∈ processingTask plainHost cfg [{ icmd := ⟨"block_ip", "127.0.0.1\x00"⟩ }],
        e.argv[1]? = some "127.0.0.1" ∧ "127.0.0.1" ∈ e.action.whitelist :=
    ⟨_, rfl, _, List.mem_cons_self, by decide +kernel, by decide +kernel⟩
  obtain ⟨cfg, hcfg, e, he, hargument, hwhite⟩ := hparse
  obtain ⟨-, argument, harg, -, hnot⟩ := h blockIpConfig cfg hcfg _ e he
  obtain rfl := Option.some.inj (hargument.symm.trans harg)
  exact hnot hwhite

end InterventionConfig

end Ctguard
