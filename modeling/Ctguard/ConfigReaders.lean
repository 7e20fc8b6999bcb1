import Ctguard.CommutingSteps
import Ctguard.InterventionDaemon
import Ctguard.LogfileTask

/-!
# Reading the configurations

The four programs read the group of their name, and the groups inside of it, in the same way. The
options of a group are visited in the order in which a hash table keeps them. Each is found in a
chain of comparisons and sets a field of the record of settings.
-/

namespace Ctguard

/-- The reader of one program: its group, what it starts from, what it does with an option of the
group and with a group inside of it. -/
structure GroupReader (γ τ : Type) where
  name : String
  start : γ
  applyOption : γ → ConfigOption → Except String γ
  parseGroup : ConfigHead → Except String τ
  add : γ → τ → γ
  missing : String
  duplicate : String

namespace GroupReader

variable {γ τ : Type} (r : GroupReader γ τ)

/-- A group inside of the group of the program. -/
def addGroup (cfg : γ) (b : ConfigGroup) : Except String γ :=
  (r.parseGroup b.root).map fun x => r.add cfg x

/-- `parse_config`, for the groups that the parser found in the file. -/
def parse (groups : List ConfigGroup) : Except String γ :=
  match groups.filter fun top => top.root.name = r.name with
  | [] => .error r.missing
  | top :: more =>
    match top.root.options.foldlM r.applyOption r.start with
    | .error what => .error what
    | .ok cfg =>
      match top.children.foldlM r.addGroup cfg with
      | .error what => .error what
      | .ok cfg =>
        match more with
        | [] => .ok cfg
        | again :: _ => .error (r.duplicate ++ again.root.pos.text)

end GroupReader

namespace ConfigOption

/-- `libs::parse_integral` of the first value. The parser leaves no option without one. -/
def integral (o : ConfigOption) (max : ℕ) : Except String ℕ :=
  libsParseIntegral max (o.options.headD "")

/-- The text for a refused value that is not repeated. -/
def refused {α : Type} (o : ConfigOption) (x : Except String α) : Except String α :=
  x.mapError fun what =>
    "Invalid argument for configuration '" ++ o.key ++ "' given: " ++ what

/-- The text for a refused value with the first value. -/
def refusedValue {α : Type} (o : ConfigOption) (x : Except String α) : Except String α :=
  x.mapError fun what => "Invalid argument '" ++ o.options.headD "" ++
    "' for configuration " ++ o.key ++ " given: " ++ what

/-- One of two words. -/
def choice {α : Type} (o : ConfigOption) (first second : String × α)
    (error : String → String) : Except String α := do
  let value ← o.single
  if value = first.1 then return first.2
  else if value = second.1 then return second.2
  else throw (error value)

end ConfigOption

/-- `output_kind_t` and `intervention_kind_t`. -/
inductive OutputKind where
  | socket
  | file
  deriving DecidableEq, Repr

def ConfigOption.kind (o : ConfigOption) : Except String OutputKind :=
  o.choice ("socket", .socket) ("file", .file) fun value =>
    "Invalid argument for configuration " ++ o.key ++ " given: '" ++ value ++ "'"

namespace Logscan

open LogfileTask (LogfileConfig)

structure LogscanConfig where
  logFiles : List LogfileConfig := []
  checkInterval : UInt32 := 1
  stateFileInterval : UInt32 := 30
  outputKind : OutputKind := .socket
  stateFile : String := "/var/lib/ctguard/logscan.state"
  outputPath : String := "/run/ctguard/research.sock"
  logPath : String := "/var/log/ctguard/logscan.log"
  systemdSocket : String := "/run/systemd/journal/syslog"
  systemdInput : Bool := true
  deriving DecidableEq, Repr

/-- One option of the group `logscan`. That of the interval of the state file is written to the
interval of the checks. -/
def applyOption (cfg : LogscanConfig) (a : ConfigOption) : Except String LogscanConfig :=
  if a.key = "check_interval" then
    (a.refused (parseSecondDuration a.options)).map fun value => { cfg with checkInterval := value }
  else if a.key = "state_file_interval" then
    (a.refused (a.integral (2 ^ 32 - 1))).map fun value => { cfg with checkInterval := .ofNat value }
  else if a.key = "state_file" then a.single.map fun value => { cfg with stateFile := value }
  else if a.key = "output_path" then a.single.map fun value => { cfg with outputPath := value }
  else if a.key = "log_path" then a.single.map fun value => { cfg with logPath := value }
  else if a.key = "systemd_socket" then
    a.single.map fun value => { cfg with systemdSocket := value }
  else if a.key = "output_kind" then a.kind.map fun value => { cfg with outputKind := value }
  else if a.key = "systemd_input" then
    (a.single >>= fun value => a.refusedValue (libsParseBool value)).map fun value =>
      { cfg with systemdInput := value }
  else .error ("Invalid configuration option '" ++ a.key ++ "' in group logscan at " ++
    a.pos.text)

/-- One option of a group `logfile`. -/
def applyLogfileOption (lc : LogfileConfig) (c : ConfigOption) : Except String LogfileConfig :=
  if c.key = "timeout_warning" then
    (c.refusedValue (parseSecondDuration c.options)).map fun value =>
      { lc with timeoutAlert := value }
  else .error ("Invalid configuration option '" ++ c.key ++ "' in group logfile at " ++
    c.pos.text)

/-- A group inside of the group `logscan`. -/
def parseLogfile (b : ConfigHead) : Except String LogfileConfig :=
  if b.name = "logfile" then
    if b.keyword = "" then
      .error ("Empty key for configuration group '" ++ b.name ++ "' at " ++ b.pos.text)
    else b.options.foldlM applyLogfileOption { path := b.keyword }
  else .error ("Invalid configuration group '" ++ b.name ++ "' at " ++ b.pos.text)

def reader : GroupReader LogscanConfig LogfileConfig where
  name := "logscan"
  start := {}
  applyOption := applyOption
  parseGroup := parseLogfile
  add cfg lc := { cfg with logFiles := cfg.logFiles ++ [lc] }
  missing := "No toplevel logscan configuration group found"
  duplicate := "Duplicate top level configgroup logscan found at "

def parseConfig : List ConfigGroup → Except String LogscanConfig := reader.parse

end Logscan

namespace Research

structure ResearchConfig where
  rulesFile : String := ""
  rulesDirectory : String := "/etc/ctguard/rules/"
  logPath : String := "/var/log/ctguard/research.log"
  outputPath : String := "/var/log/ctguard/alerts.log"
  inputPath : String := "/run/ctguard/research.sock"
  interventionPath : String := "/run/ctguard_intervention.sock"
  interventionKind : OutputKind := .socket
  logPriority : UInt16 := 1
  mail : Bool := true
  mailInterval : UInt32 := 30
  mailSampleTime : UInt32 := 1
  mailMaxSampleCount : UInt32 := 1000
  mailPriority : UInt16 := 4
  mailInstant : UInt16 := 7
  mailHost : String := "localhost"
  mailFromaddr : String := "ctguard@localhost"
  mailToaddr : String := "root@localhost"
  mailReplyaddr : String := "root@localhost"
  mailPort : String := "25"
  deriving DecidableEq, Repr

/-- A number that is the only value. -/
def number (a : ConfigOption) (max : ℕ) : Except String ℕ :=
  a.single >>= fun value => a.refusedValue (libsParseIntegral max value)

/-- One option of the group `research`. -/
def applyOption (cfg : ResearchConfig) (a : ConfigOption) : Except String ResearchConfig :=
  if a.key = "rules_file" then a.single.map fun value => { cfg with rulesFile := value }
  else if a.key = "rules_directory" then
    a.single.map fun value => { cfg with rulesDirectory := value }
  else if a.key = "log_path" then a.single.map fun value => { cfg with logPath := value }
  else if a.key = "output_path" then a.single.map fun value => { cfg with outputPath := value }
  else if a.key = "input_path" then a.single.map fun value => { cfg with inputPath := value }
  else if a.key = "log_priority" then
    (number a (2 ^ 16 - 1)).map fun value => { cfg with logPriority := .ofNat value }
  else if a.key = "mail" then
    (a.refusedValue (libsParseBool (a.options.headD ""))).map fun value =>
      { cfg with mail := value }
  else if a.key = "mail_interval" then
    (a.refusedValue (parseSecondDuration a.options)).map fun value =>
      { cfg with mailInterval := value }
  else if a.key = "mail_sample_time" then
    (a.refusedValue (parseSecondDuration a.options)).map fun value =>
      { cfg with mailSampleTime := value }
  else if a.key = "mail_priority" then
    (number a (2 ^ 16 - 1)).map fun value => { cfg with mailPriority := .ofNat value }
  else if a.key = "mail_max_sample_count" then
    (number a (2 ^ 32 - 1)).map fun value => { cfg with mailMaxSampleCount := .ofNat value }
  else if a.key = "mail_instant" then
    (number a (2 ^ 16 - 1)).map fun value => { cfg with mailInstant := .ofNat value }
  else if a.key = "mail_port" then a.single.map fun value => { cfg with mailPort := value }
  else if a.key = "mail_host" then a.single.map fun value => { cfg with mailHost := value }
  else if a.key = "mail_fromaddr" then
    a.single.map fun value => { cfg with mailFromaddr := value }
  else if a.key = "mail_replyaddr" then
    a.single.map fun value => { cfg with mailReplyaddr := value }
  else if a.key = "mail_toaddr" then a.single.map fun value => { cfg with mailToaddr := value }
  else if a.key = "intervention_path" then
    a.single.map fun value => { cfg with interventionPath := value }
  else if a.key = "intervention_kind" then
    a.kind.map fun value => { cfg with interventionKind := value }
  else .error ("Invalid configuration option '" ++ a.key ++ "' in group research at " ++
    a.pos.text)

/-- There is no group inside of the group `research`. -/
def refuseGroup (b : ConfigHead) : Except String Empty :=
  .error ("Invalid configuration group '" ++ b.name ++ "' at " ++ b.pos.text)

def reader : GroupReader ResearchConfig Empty where
  name := "research"
  start := {}
  applyOption := applyOption
  parseGroup := refuseGroup
  add cfg _ := cfg
  missing := "No toplevel research configuration group found"
  duplicate := "Duplicate top level configgroup research found at "

def parseConfig : List ConfigGroup → Except String ResearchConfig := reader.parse

end Research

namespace Diskscan

variable {ρ : Type} (host : Host ρ)

/-- `watch::scan_option`. -/
inductive ScanOption where
  | full
  deriving DecidableEq, Repr

structure Watch where
  path : String
  option : ScanOption := .full
  recursive : Bool := true
  realtime : Bool := false
  checkDiff : Bool := false
  deriving DecidableEq, Repr

/-- Without a value, `realtime_ignore` is the expression that no text makes. -/
structure DiskscanConfig (ρ : Type) where
  watches : List Watch := []
  dbPath : String := "/var/lib/ctguard/diskscan.db"
  diffdbPath : String := "/var/lib/ctguard/diskscan_diff.db"
  logPath : String := "/var/log/ctguard/diskscan.log"
  outputPath : String := "/run/ctguard/research.sock"
  outputKind : OutputKind := .socket
  realtimeIgnore : Option ρ := none
  scaninterval : UInt64 := 6 * 60 * 60
  settleTime : UInt16 := 100
  blockSize : UInt16 := 1000
  maxDiffSize : UInt32 := 1048576

/-- An expression that does not match everything. -/
def ignored (a : ConfigOption) : Except String ρ := do
  let value ← a.single
  (do
    let r ← host.compile value
    if (host.search r "TEstXXThisshouldNotMatch").isSome then
      throw ("Invalid regex for configuration " ++ a.key ++ " given: matches everything")
    return r).mapError fun what =>
      "Invalid regex for configuration " ++ a.key ++ " given: " ++ what

/-- One option of the group `diskscan`. -/
def applyOption (cfg : DiskscanConfig ρ) (a : ConfigOption) : Except String (DiskscanConfig ρ) :=
  if a.key = "db_path" then a.single.map fun value => { cfg with dbPath := value }
  else if a.key = "diffdb_path" then a.single.map fun value => { cfg with diffdbPath := value }
  else if a.key = "log_path" then a.single.map fun value => { cfg with logPath := value }
  else if a.key = "output_path" then a.single.map fun value => { cfg with outputPath := value }
  else if a.key = "realtime_ignore" then
    (ignored host a).map fun value => { cfg with realtimeIgnore := some value }
  else if a.key = "scaninterval" then
    (a.refused (parseSecondDuration a.options)).map fun value =>
      { cfg with scaninterval := value.toUInt64 }
  else if a.key = "settle_time" then
    (a.refused (a.integral (2 ^ 16 - 1))).map fun value => { cfg with settleTime := .ofNat value }
  else if a.key = "block_size" then
    (a.refused (a.integral (2 ^ 16 - 1))).map fun value => { cfg with blockSize := .ofNat value }
  else if a.key = "max_diff_size" then
    (a.refused (a.integral (2 ^ 32 - 1))).map fun value => { cfg with maxDiffSize := .ofNat value }
  else if a.key = "output_kind" then a.kind.map fun value => { cfg with outputKind := value }
  else .error ("Invalid configuration option '" ++ a.key ++ "' in scope diskscan")

def invalidValue (a : ConfigOption) (value : String) : String :=
  "Invalid configuration value '" ++ value ++ "' for element '" ++ a.key ++ "'"

def boolean (a : ConfigOption) : Except String Bool :=
  a.choice ("true", true) ("false", false) (invalidValue a)

/-- One option of a group `directory`. -/
def applyDirectoryOption (w : Watch) (a : ConfigOption) : Except String Watch :=
  if a.key = "recursive" then (boolean a).map fun value => { w with recursive := value }
  else if a.key = "realtime" then (boolean a).map fun value => { w with realtime := value }
  else if a.key = "checkdiff" then (boolean a).map fun value => { w with checkDiff := value }
  else if a.key = "checks" then
    (a.single >>= fun value =>
      if value = "full" then .ok ScanOption.full else .error (invalidValue a value)).map
        fun value => { w with option := value }
  else .error ("Invalid configuration option '" ++ a.key ++ "' in scope directory")

/-- A group inside of the group `diskscan`. -/
def parseDirectory (b : ConfigHead) : Except String Watch :=
  if b.name = "directory" then
    if b.keyword = "" then
      .error ("Empty key for configuration group '" ++ b.name ++ "' at " ++ b.pos.text)
    else b.options.foldlM applyDirectoryOption { path := b.keyword }
  else .error ("Invalid configuration group '" ++ b.name ++ "' in scope diskscan")

def reader : GroupReader (DiskscanConfig ρ) Watch where
  name := "diskscan"
  start := {}
  applyOption := applyOption host
  parseGroup := parseDirectory
  add cfg w := { cfg with watches := cfg.watches ++ [w] }
  missing := "No toplevel diskscan configuration group found"
  duplicate := "Duplicate top level configgroup diskscan found at "

def readConfig : List ConfigGroup → Except String (DiskscanConfig ρ) := (reader host).parse

end Diskscan

namespace InterventionConfig

variable {ρ : Type} (host : Host ρ)

def reader : GroupReader InterventionConfig InterventionAction where
  name := "intervention"
  start := {}
  applyOption := applyOption
  parseGroup := parseAction host
  add cfg action := { cfg with actions := cfg.actions ++ [action] }
  missing := "No toplevel intervention configuration group found"
  duplicate := "Duplicate top level configgroup research found at "

theorem addGroup_reader : (reader host).addGroup = addAction host := rfl

theorem parse_reader (groups : List ConfigGroup) :
    (reader host).parse groups = parse host groups := by
  have hname : (reader host).name = "intervention" := rfl
  have hoption : (reader host).applyOption = applyOption := rfl
  have hstart : (reader host).start = {} := rfl
  rw [GroupReader.parse, parse, addGroup_reader, hname]
  cases groups.filter fun top => top.root.name = "intervention" with
  | nil => rfl
  | cons top more =>
    simp only [hoption, hstart]
    cases top.root.options.foldlM applyOption {} with
    | error what => rfl
    | ok cfg =>
      simp only
      cases top.children.foldlM (addAction host) cfg with
      | error what => rfl
      | ok cfg =>
        cases more with
        | nil => rfl
        | cons again more => rfl

end InterventionConfig

end Ctguard
