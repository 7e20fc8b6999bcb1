import Ctguard.ConfigReaders

/-!
# The settings of an option

Each branch of the chains of comparisons sets one field of the record of settings, to a value that
depends on the option alone. For all but one of them, it is the field of the option's name.
-/

namespace Ctguard

def ConfigOption.entry (o : ConfigOption) : String × List String := (o.key, o.options)

section Fields

variable {γ : Type}

/-- An option as it is accepted, which does not depend on its position. -/
def entryStep (apply : γ → ConfigOption → Except String γ) (cfg : γ) (e : String × List String) :
    Option γ :=
  (apply cfg ⟨e.1, e.2, ⟨0, 0⟩⟩).toOption

/-- Whether it fails or not, it does so everywhere, and sets the field to a value of its own. -/
def Writes (F : Fields String γ) (k : String) (f : γ → Except String γ) : Prop :=
  ∀ cfg cfg', f cfg = .ok cfg' → ∀ d, f d = .ok (F.copy k cfg' d)

/-- What an option does: it sets the field `target`, and is accepted wherever it stands or not at
all. -/
structure Applies (F : Fields String γ) (apply : γ → ConfigOption → Except String γ)
    (target : String → String) : Prop where
  written : ∀ o, Writes F (target o.key) (apply · o)
  blind : ∀ cfg o p, (apply cfg { o with pos := p }).toOption = (apply cfg o).toOption

variable {F : Fields String γ} {apply : γ → ConfigOption → Except String γ}
  {target : String → String}

theorem Applies.entryStep_written (h : Applies F apply target) :
    F.Written (entryStep apply) (fun e => target e.1) := by
  intro cfg e cfg' hstep d
  cases hok : apply cfg ⟨e.1, e.2, ⟨0, 0⟩⟩ with
  | error what => simp [entryStep, hok, Except.toOption] at hstep
  | ok x =>
    obtain rfl : x = cfg' := by simpa [entryStep, hok, Except.toOption] using hstep
    simp [entryStep, h.written _ _ _ hok d, Except.toOption]

theorem Applies.toOption_foldlM (h : Applies F apply target) (os : List ConfigOption) (cfg : γ) :
    (os.foldlM apply cfg).toOption =
      runSteps (entryStep apply) cfg (os.map ConfigOption.entry) := by
  induction os generalizing cfg with
  | nil => rfl
  | cons o os ih =>
    rw [List.foldlM_cons, List.map_cons, runSteps_cons]
    have hfirst : entryStep apply cfg o.entry = (apply cfg o).toOption := h.blind cfg o ⟨0, 0⟩
    rw [hfirst]
    cases apply cfg o with
    | error what => rfl
    | ok cfg' => exact ih cfg'

theorem Applies.foldlM_eq_ok (h : Applies F apply target) {os : List ConfigOption} {cfg cfg' : γ} :
    os.foldlM apply cfg = .ok cfg' ↔
      runSteps (entryStep apply) cfg (os.map ConfigOption.entry) = some cfg' := by
  rw [← h.toOption_foldlM]
  cases os.foldlM apply cfg <;> simp [Except.toOption]

theorem writes_error (k : String) (what : String) : Writes F k fun _ => .error what := by
  intro cfg cfg' h
  cases h

theorem writes_ok {k : String} {set : γ → γ} (hset : ∀ cfg d, set d = F.copy k (set cfg) d) :
    Writes F k fun cfg => .ok (set cfg) := by
  intro cfg cfg' h d
  obtain rfl := Except.ok.inj h
  exact congrArg Except.ok (hset cfg d)

theorem writes_map {α : Type} {k : String} {x : Except String α} {set : γ → α → γ}
    (hset : ∀ cfg d v, set d v = F.copy k (set cfg v) d) :
    Writes F k fun cfg => x.map fun v => set cfg v := by
  intro cfg cfg' h d
  cases x with
  | error what => cases h
  | ok v =>
    obtain rfl := Except.ok.inj h
    exact congrArg Except.ok (hset cfg d v)

theorem writes_ite {k : String} {c : Prop} [Decidable c] {f g : γ → Except String γ}
    (hf : c → Writes F k f) (hg : ¬ c → Writes F k g) :
    Writes F k fun cfg => if c then f cfg else g cfg := by
  by_cases hc : c
  · simpa only [if_pos hc] using hf hc
  · simpa only [if_neg hc] using hg hc

theorem toOption_ite {c : Prop} [Decidable c] {x y x' y' : Except String γ}
    (hx : x.toOption = x'.toOption) (hy : y.toOption = y'.toOption) :
    (if c then x else y).toOption = (if c then x' else y').toOption := by
  by_cases hc : c
  · simpa only [if_pos hc] using hx
  · simpa only [if_neg hc] using hy

end Fields

section Records

open LogfileTask (LogfileConfig)

/-- The fields of the settings of each program, under the names of their options. -/
def Logscan.fields : Fields String Logscan.LogscanConfig where
  copy key src dst := {
    logFiles := dst.logFiles
    checkInterval := pick key "check_interval" src.checkInterval dst.checkInterval
    stateFileInterval := pick key "state_file_interval" src.stateFileInterval dst.stateFileInterval
    outputKind := pick key "output_kind" src.outputKind dst.outputKind
    stateFile := pick key "state_file" src.stateFile dst.stateFile
    outputPath := pick key "output_path" src.outputPath dst.outputPath
    logPath := pick key "log_path" src.logPath dst.logPath
    systemdSocket := pick key "systemd_socket" src.systemdSocket dst.systemdSocket
    systemdInput := pick key "systemd_input" src.systemdInput dst.systemdInput }
  copy_self key s := by simp
  copy_copy key s t u := by simp
  copy_comm h s t u := by simp only [pick_comm h]

/-- The setting that the code writes. -/
def Logscan.target (key : String) : String :=
  if key = "state_file_interval" then "check_interval" else key

theorem Logscan.applies : Applies Logscan.fields Logscan.applyOption Logscan.target where
  written o := by
    unfold applyOption
    repeat' refine writes_ite (fun hkey => ?_) fun _ => ?_
    all_goals first
      | exact writes_error _ _
      | exact writes_map fun cfg d v => by simp [target, fields, pick, hkey]
  blind cfg o p := by
    unfold applyOption
    repeat' refine toOption_ite rfl ?_
    rfl

variable {ρ : Type} {host : Host ρ}

def Research.fields : Fields String Research.ResearchConfig where
  copy key src dst := {
    rulesFile := pick key "rules_file" src.rulesFile dst.rulesFile
    rulesDirectory := pick key "rules_directory" src.rulesDirectory dst.rulesDirectory
    logPath := pick key "log_path" src.logPath dst.logPath
    outputPath := pick key "output_path" src.outputPath dst.outputPath
    inputPath := pick key "input_path" src.inputPath dst.inputPath
    interventionPath := pick key "intervention_path" src.interventionPath dst.interventionPath
    interventionKind := pick key "intervention_kind" src.interventionKind dst.interventionKind
    logPriority := pick key "log_priority" src.logPriority dst.logPriority
    mail := pick key "mail" src.mail dst.mail
    mailInterval := pick key "mail_interval" src.mailInterval dst.mailInterval
    mailSampleTime := pick key "mail_sample_time" src.mailSampleTime dst.mailSampleTime
    mailMaxSampleCount :=
      pick key "mail_max_sample_count" src.mailMaxSampleCount dst.mailMaxSampleCount
    mailPriority := pick key "mail_priority" src.mailPriority dst.mailPriority
    mailInstant := pick key "mail_instant" src.mailInstant dst.mailInstant
    mailHost := pick key "mail_host" src.mailHost dst.mailHost
    mailFromaddr := pick key "mail_fromaddr" src.mailFromaddr dst.mailFromaddr
    mailToaddr := pick key "mail_toaddr" src.mailToaddr dst.mailToaddr
    mailReplyaddr := pick key "mail_replyaddr" src.mailReplyaddr dst.mailReplyaddr
    mailPort := pick key "mail_port" src.mailPort dst.mailPort }
  copy_self key s := by simp
  copy_copy key s t u := by simp
  copy_comm h s t u := by simp only [pick_comm h]

theorem Research.applies : Applies Research.fields Research.applyOption id where
  written o := by
    unfold applyOption
    repeat' refine writes_ite (fun hkey => ?_) fun _ => ?_
    all_goals first
      | exact writes_error _ _
      | exact writes_map fun cfg d v => by simp [fields, pick, hkey]
  blind cfg o p := by
    unfold applyOption
    repeat' refine toOption_ite rfl ?_
    rfl

def Diskscan.fields (ρ : Type) : Fields String (Diskscan.DiskscanConfig ρ) where
  copy key src dst := {
    watches := dst.watches
    dbPath := pick key "db_path" src.dbPath dst.dbPath
    diffdbPath := pick key "diffdb_path" src.diffdbPath dst.diffdbPath
    logPath := pick key "log_path" src.logPath dst.logPath
    outputPath := pick key "output_path" src.outputPath dst.outputPath
    outputKind := pick key "output_kind" src.outputKind dst.outputKind
    realtimeIgnore := pick key "realtime_ignore" src.realtimeIgnore dst.realtimeIgnore
    scaninterval := pick key "scaninterval" src.scaninterval dst.scaninterval
    settleTime := pick key "settle_time" src.settleTime dst.settleTime
    blockSize := pick key "block_size" src.blockSize dst.blockSize
    maxDiffSize := pick key "max_diff_size" src.maxDiffSize dst.maxDiffSize }
  copy_self key s := by simp
  copy_copy key s t u := by simp
  copy_comm h s t u := by simp only [pick_comm h]

theorem Diskscan.applies : Applies (Diskscan.fields ρ) (Diskscan.applyOption host) id where
  written o := by
    unfold applyOption
    repeat' refine writes_ite (fun hkey => ?_) fun _ => ?_
    all_goals first
      | exact writes_error _ _
      | exact writes_map fun cfg d v => by simp [fields, pick, hkey]
  blind cfg o p := by
    unfold applyOption
    repeat' refine toOption_ite rfl ?_
    rfl

def InterventionConfig.fields : Fields String InterventionConfig where
  copy key src dst := {
    actions := dst.actions
    logPath := pick key "log_path" src.logPath dst.logPath
    inputPath := pick key "input_path" src.inputPath dst.inputPath }
  copy_self key s := by simp
  copy_copy key s t u := by simp
  copy_comm h s t u := by simp only [pick_comm h]

theorem InterventionConfig.applies : Applies InterventionConfig.fields InterventionConfig.applyOption id where
  written o := by
    unfold applyOption
    repeat' refine writes_ite (fun hkey => ?_) fun _ => ?_
    all_goals first
      | exact writes_error _ _
      | exact writes_map fun cfg d v => by simp [fields, pick, hkey]
  blind cfg o p := by
    unfold applyOption
    repeat' refine toOption_ite rfl ?_
    rfl

/-- The settings of a group inside of that of a program. -/
def Logscan.logfileFields : Fields String LogfileConfig where
  copy key src dst := {
    path := dst.path
    timeoutAlert := pick key "timeout_warning" src.timeoutAlert dst.timeoutAlert }
  copy_self key s := by simp
  copy_copy key s t u := by simp
  copy_comm h s t u := by simp only [pick_comm h]

theorem Logscan.logfileApplies : Applies Logscan.logfileFields Logscan.applyLogfileOption id where
  written o := by
    unfold applyLogfileOption
    repeat' refine writes_ite (fun hkey => ?_) fun _ => ?_
    all_goals first
      | exact writes_error _ _
      | exact writes_map fun cfg d v => by simp [logfileFields, pick, hkey]
  blind cfg o p := by
    unfold applyLogfileOption
    repeat' refine toOption_ite rfl ?_
    rfl

def Diskscan.watchFields : Fields String Diskscan.Watch where
  copy key src dst := {
    path := dst.path
    option := pick key "checks" src.option dst.option
    recursive := pick key "recursive" src.recursive dst.recursive
    realtime := pick key "realtime" src.realtime dst.realtime
    checkDiff := pick key "checkdiff" src.checkDiff dst.checkDiff }
  copy_self key s := by simp
  copy_copy key s t u := by simp
  copy_comm h s t u := by simp only [pick_comm h]

theorem Diskscan.watchApplies : Applies Diskscan.watchFields Diskscan.applyDirectoryOption id where
  written o := by
    unfold applyDirectoryOption
    repeat' refine writes_ite (fun hkey => ?_) fun _ => ?_
    all_goals first
      | exact writes_error _ _
      | exact writes_map fun cfg d v => by simp [watchFields, pick, hkey]
  blind cfg o p := by
    unfold applyDirectoryOption
    repeat' refine toOption_ite rfl ?_
    rfl

def InterventionConfig.actionFields : Fields String InterventionAction where
  copy key src dst := {
    name := dst.name
    command := pick key "command" src.command dst.command
    user := pick key "user" src.user dst.user
    group := pick key "group" src.group dst.group
    regex := pick key "regex" src.regex dst.regex
    whitelist := pick key "whitelist" src.whitelist dst.whitelist
    commandTimeout := pick key "command_timeout" src.commandTimeout dst.commandTimeout }
  copy_self key s := by simp
  copy_copy key s t u := by simp
  copy_comm h s t u := by simp only [pick_comm h]

theorem InterventionConfig.actionApplies : Applies InterventionConfig.actionFields (InterventionConfig.applyActionOption host) id where
  written o := by
    unfold applyActionOption
    repeat' refine writes_ite (fun hkey => ?_) fun _ => ?_
    · exact writes_map fun cfg d v => by simp [actionFields, pick, hkey]
    · exact writes_map fun cfg d v => by simp [actionFields, pick, hkey]
    · exact writes_map fun cfg d v => by simp [actionFields, pick, hkey]
    · cases parseSecondDuration o.options with
      | error what => exact writes_error _ _
      | ok v => exact writes_ok fun cfg d => by simp [actionFields, pick, hkey]
    · cases o.single with
      | error what => exact writes_error _ _
      | ok value =>
        simp only
        cases host.compile value with
        | error what => exact writes_error _ _
        | ok r => exact writes_ok fun cfg d => by simp [actionFields, pick, hkey]
    · exact writes_ok fun cfg d => by simp [actionFields, pick, hkey]
    · exact writes_error _ _
  blind cfg o p := by
    unfold applyActionOption
    repeat' refine toOption_ite rfl ?_
    rfl

end Records

end Ctguard
