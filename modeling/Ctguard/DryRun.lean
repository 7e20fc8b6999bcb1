import Ctguard.InputStream
import Ctguard.ResearchDaemon

/-!
# The dry run

With `--input`, the program reads lines from the standard input, passes them to `process_log` and
writes what it would do. The flag `RUNNING` is not cleared in this mode, and the loop does not look
at the stream: behind the end of the input it goes on with empty lines. Its decision about alerts is
a copy of the one in `processing_task`, without the rules that are always raised.
-/

namespace Ctguard

open ResearchDaemon

variable {ρ : Type}

/-- The lines of an input; the last one may be open. -/
def inputLines (input : List Char) : List (List Char) :=
  terminatedItems '\n' input ++ if openItem '\n' input = [] then [] else [openItem '\n' input]

def quitLine : List Char := "quit".toList

/-- The lines before the first `quit`. -/
def beforeQuit (lines : List (List Char)) : List (List Char) := lines.takeWhile (· ≠ quitLine)

/-- The `source_event` of a line. -/
def dryEvent (line : List Char) : SourceEvent := { message := String.ofList line }

/-- What is written for a line: the matched rule, whether an alert would be created, and the names
and arguments of the interventions that would be fired. -/
structure Report where
  ruleId : RuleId
  priority : Priority
  message : String
  alert : Bool
  fired : List (String × String)

/-- The decision of the dry run. -/
def report (cfg : ResearchConfig) (ev : Event) : Report where
  ruleId := ev.ruleId
  priority := ev.priority
  message := if ev.description = "" then "((none))" else ev.description
  alert := cfg.logPriority ≤ ev.priority
  fired := if cfg.logPriority ≤ ev.priority then
      ev.interventions.filterMap fun i => ev.fields[i.field]?.map fun argument => (i.name, argument)
    else []

/-- The variables of the loop, the lines that have been passed to `process_log`, and what has been
written for them. -/
structure DryState where
  input : InputStream Char
  states : RulesState
  passed : List (List Char) := []
  reports : List Report := []

/-- `main` returns, or it is left by an exception. -/
inductive DryEnd where
  | returned
  | threw (f : Fault)
  deriving DecidableEq, Repr

section Loop

variable (host : Host ρ) (cfg : ResearchConfig) (rules : RuleCfg ρ) (clock : ℕ → ℤ)

/-- One round of the loop. -/
def dryRound (now : ℤ) (s : DryState) : DryState × Option DryEnd :=
  let read := s.input.getline '\n' []
  if read.1 = quitLine then ({ s with input := read.2 }, some .returned)
  else
    let o := processLog host now (dryEvent read.1) rules s.states
    let s := { s with input := read.2, states := o.state, passed := s.passed ++ [read.1] }
    match o.result with
    | .error f => (s, some (.threw f))
    | .ok ev => ({ s with reports := s.reports ++ [report cfg ev] }, none)

/-- Some rounds of the loop, unless it ends before. The clock is read in every call. -/
def dryRun : ℕ → DryState → DryState × Option DryEnd
  | 0, s => (s, none)
  | rounds + 1, s =>
    match dryRound host cfg rules (clock s.passed.length) s with
    | (s, none) => dryRun rounds s
    | (s, some how) => (s, some how)

/-- What `processing_task` hands on for messages, from the `k`-th call on. -/
def processingRun : ℕ → List SourceEvent → RulesState → List Handled
  | _, [], _ => []
  | k, se :: ses, st =>
    if isKill se then [{ alerts := [.ofSource host se], interventions := [killIntervention] }]
    else
      let o := processLog host (clock k) se rules st
      match o.result with
      | .error _ => []
      | .ok ev => handle cfg ev :: processingRun (k + 1) ses o.state

/-- The events that `process_log` returns for lines, up to an exception. -/
def eventsFrom : ℕ → List (List Char) → RulesState → List Event
  | _, [], _ => []
  | k, line :: lines, st =>
    let o := processLog host (clock k) (dryEvent line) rules st
    match o.result with
    | .error _ => []
    | .ok ev => ev :: eventsFrom (k + 1) lines o.state

/-- `process_log` returns for each of the lines. -/
def AllReturn : ℕ → List (List Char) → RulesState → Prop
  | _, [], _ => True
  | k, line :: lines, st =>
    let o := processLog host (clock k) (dryEvent line) rules st
    (∃ ev, o.result = .ok ev) ∧ AllReturn (k + 1) lines o.state

end Loop

section Reading

variable {stream : InputStream Char} {line : List Char} {lines : List (List Char)}

/-- The lines that are still to come. Behind them, the stream gives empty ones. -/
def Coming (stream : InputStream Char) (lines : List (List Char)) : Prop :=
  if stream.good then lines = inputLines stream.rest else lines = []

theorem inputLines_item {item : List Char} (h : '\n' ∉ item) (rest : List Char) :
    inputLines (item ++ '\n' :: rest) = item :: inputLines rest := by
  rw [inputLines, terminatedItems_item h, openItem_append_cons, inputLines, List.cons_append]

theorem inputLines_last {item : List Char} (h : '\n' ∉ item) :
    inputLines item = if item = [] then [] else [item] := by
  rw [inputLines, terminatedItems_of_notMem h, openItem_of_notMem h, List.nil_append]

/-- A line is read, and the others are still to come. -/
theorem getline_coming (h : Coming stream lines) :
    (stream.getline '\n' []).1 = lines.headD [] ∧
      Coming (stream.getline '\n' []).2 lines.tail := by
  by_cases hgood : stream.good = true
  · rw [Coming, if_pos hgood] at h
    by_cases hmem : '\n' ∈ stream.rest
    · obtain ⟨item, more, hrest, hitem⟩ := List.eq_append_cons_of_mem hmem
      obtain ⟨hmore, hgood'⟩ := InputStream.rest_advance hrest hgood
      rw [hrest, inputLines_item hitem] at h
      rw [InputStream.getline_item hgood hitem hrest, h, Coming, if_pos hgood', hmore]
      exact ⟨rfl, rfl⟩
    · rw [inputLines_last hmem] at h
      rw [InputStream.getline_last hgood hmem, h, Coming]
      by_cases hnil : stream.rest = [] <;> simp [hnil, InputStream.good]
  · rw [Coming, if_neg hgood] at h
    rw [InputStream.getline, if_neg hgood, h, Coming]
    simp [InputStream.good]

end Reading

section Rounds

variable {host : Host ρ} {cfg : ResearchConfig} {rules : RuleCfg ρ} {clock : ℕ → ℤ}
  {s s' : DryState} {line : List Char} {lines : List (List Char)} {now : ℤ} {k : ℕ}
  {st : RulesState}

/-- A round with the line `quit` ends the loop. -/
theorem dryRound_quit (h : Coming s.input (quitLine :: lines)) :
    ∃ input, dryRound host cfg rules now s = ({ s with input := input }, some .returned) := by
  have hline := (getline_coming h).1
  rw [List.headD_cons] at hline
  exact ⟨(s.input.getline '\n' []).2, by rw [dryRound, if_pos hline]⟩

/-- What a round with another line does. -/
theorem dryRound_line (h : Coming s.input lines) (hline : lines.headD [] ≠ quitLine) :
    ∃ input, Coming input lines.tail ∧ dryRound host cfg rules now s =
      let o := processLog host now (dryEvent (lines.headD [])) rules s.states
      let s := { s with input := input, states := o.state, passed := s.passed ++ [lines.headD []] }
      match o.result with
      | .error f => (s, some (.threw f))
      | .ok ev => ({ s with reports := s.reports ++ [report cfg ev] }, none) := by
  obtain ⟨hread, hcoming⟩ := getline_coming h
  refine ⟨(s.input.getline '\n' []).2, hcoming, ?_⟩
  rw [dryRound, if_neg (by rwa [hread]), hread]

theorem beforeQuit_quit (lines : List (List Char)) : beforeQuit (quitLine :: lines) = [] :=
  List.takeWhile_cons_of_neg (by simp)

theorem beforeQuit_line (h : line ≠ quitLine) (lines : List (List Char)) :
    beforeQuit (line :: lines) = line :: beforeQuit lines :=
  List.takeWhile_cons_of_pos (by simpa using h)

/-- If no call throws, the loop is left at `quit`, behind the lines in front of it. -/
theorem dryRun_returned (h : Coming s.input lines) (hquit : quitLine ∈ lines)
    (hall : AllReturn host rules clock s.passed.length (beforeQuit lines) s.states) :
    ∃ s', dryRun host cfg rules clock lines.length s = (s', some .returned) ∧
      s'.passed = s.passed ++ beforeQuit lines := by
  induction lines generalizing s with
  | nil => cases hquit
  | cons line lines ih =>
    rw [List.length_cons, dryRun]
    by_cases hline : line = quitLine
    · subst hline
      obtain ⟨input, hround⟩ := dryRound_quit h
      rw [hround, beforeQuit_quit, List.append_nil]
      exact ⟨_, rfl, rfl⟩
    · obtain ⟨input, hcoming, hround⟩ := dryRound_line h hline
      rw [beforeQuit_line hline] at hall ⊢
      obtain ⟨⟨ev, hev⟩, hall⟩ := hall
      have hquit' : quitLine ∈ lines := (List.mem_cons.mp hquit).resolve_left (Ne.symm hline)
      have hall' : AllReturn host rules clock (s.passed ++ [line]).length (beforeQuit lines)
          (processLog host (clock s.passed.length) (dryEvent line) rules s.states).state := by
        rwa [List.length_append, List.length_singleton]
      obtain ⟨s', hrun, hpassed⟩ := ih (s := ⟨input, _, _, s.reports ++ [report cfg ev]⟩) hcoming
        hquit' hall'
      rw [hround]
      simp only [List.headD_cons, hev]
      refine ⟨s', hrun, ?_⟩
      rw [hpassed, List.append_assoc]
      rfl

/-- If the loop is left at `quit`, that line has come, and no call has thrown. -/
theorem of_dryRun_returned {rounds : ℕ} (h : Coming s.input lines)
    (hrun : dryRun host cfg rules clock rounds s = (s', some .returned)) :
    quitLine ∈ lines ∧
      AllReturn host rules clock s.passed.length (beforeQuit lines) s.states := by
  induction rounds generalizing s lines with
  | zero => cases hrun
  | succ rounds ih =>
    rw [dryRun] at hrun
    by_cases hline : lines.headD [] = quitLine
    · cases lines with
      | nil => cases hline
      | cons line lines =>
        rw [List.headD_cons] at hline
        rw [hline, beforeQuit_quit]
        exact ⟨List.mem_cons_self, trivial⟩
    · obtain ⟨input, hcoming, hround⟩ := dryRound_line h hline
      rw [hround] at hrun
      cases hresult : (processLog host (clock s.passed.length) (dryEvent (lines.headD [])) rules
        s.states).result with
      | error f =>
        simp only [hresult] at hrun
        cases hrun
      | ok ev =>
        simp only [hresult] at hrun
        obtain ⟨hquit, hall⟩ := ih hcoming hrun
        cases lines with
        | nil => cases hquit
        | cons line lines =>
          rw [List.headD_cons] at hline hresult hall
          rw [beforeQuit_line hline]
          refine ⟨List.mem_cons_of_mem _ hquit, ⟨ev, hresult⟩, ?_⟩
          simpa using hall

/-- One round for each line writes a report for each event. -/
theorem dryRun_reports (h : Coming s.input lines) :
    (dryRun host cfg rules clock lines.length s).1.reports = s.reports ++
      (eventsFrom host rules clock s.passed.length (beforeQuit lines) s.states).map
        (report cfg) := by
  induction lines generalizing s with
  | nil => simp [dryRun, beforeQuit, eventsFrom]
  | cons line lines ih =>
    rw [List.length_cons, dryRun]
    by_cases hline : line = quitLine
    · subst hline
      obtain ⟨input, hround⟩ := dryRound_quit h
      rw [hround, beforeQuit_quit]
      exact (List.append_nil _).symm
    · obtain ⟨input, hcoming, hround⟩ := dryRound_line h hline
      rw [hround, beforeQuit_line hline, eventsFrom, List.headD_cons]
      cases hresult : (processLog host (clock s.passed.length) (dryEvent line) rules
        s.states).result with
      | error f => simp only [hresult, List.map_nil, List.append_nil]
      | ok ev =>
        simp only [hresult]
        rw [List.tail_cons] at hcoming
        rw [ih hcoming]
        simp

/-- The daemon handles the same events. -/
theorem processingRun_eq (lines : List (List Char)) (k : ℕ) (st : RulesState) :
    processingRun host cfg rules clock k (lines.map dryEvent) st =
      (eventsFrom host rules clock k lines st).map (handle cfg) := by
  induction lines generalizing k st with
  | nil => rfl
  | cons line lines ih =>
    rw [List.map_cons, processingRun, eventsFrom, if_neg (by simp [isKill, dryEvent])]
    cases hresult : (processLog host (clock k) (dryEvent line) rules st).result with
    | error f => simp only [hresult, List.map_nil]
    | ok ev => simp only [hresult, List.map_cons, ih]

end Rounds

/-- Some lines of a list give the first events. -/
theorem eventsFrom_take (lines : List (List Char)) (n k : ℕ) (st : RulesState) :
    eventsFrom host rules clock k (lines.take n) st =
      (eventsFrom host rules clock k lines st).take n := by
  induction lines generalizing n k st with
  | nil => simp [eventsFrom]
  | cons line lines ih =>
    cases n with
    | zero => rfl
    | succ n =>
      rw [List.take_succ_cons, eventsFrom, eventsFrom]
      cases hresult : (processLog host (clock k) (dryEvent line) rules st).result with
      | error f => simp only [List.take_nil]
      | ok ev => simp only [ih, List.take_succ_cons]

theorem eventsFrom_beforeQuit (lines : List (List Char)) (k : ℕ) (st : RulesState) :
    eventsFrom host rules clock k (beforeQuit lines) st =
      (eventsFrom host rules clock k lines st).take (beforeQuit lines).length := by
  have hprefix : beforeQuit lines = lines.take (beforeQuit lines).length :=
    List.prefix_iff_eq_take.mp (List.takeWhile_prefix _)
  rw [← eventsFrom_take, ← hprefix]

section Input

variable (host : Host ρ) (cfg : ResearchConfig) (rules : RuleCfg ρ) (clock : ℕ → ℤ)
  (st : RulesState) (stdin : List Char)

/-- The loop before its first round. The program starts it without states. -/
def dryStart : DryState := { input := { data := stdin }, states := st }

theorem coming_dryStart : Coming (dryStart st stdin).input (inputLines stdin) := rfl

/-- The loop ends, and it has passed each line in front of `quit` or the end of the input once. -/
def DryRunEnds : Prop :=
  ∃ rounds s, dryRun host cfg rules clock rounds (dryStart st stdin) = (s, some .returned) ∧
    s.passed = beforeQuit (inputLines stdin)

/-- It ends exactly if `quit` is a line of the input, and no call for an earlier line throws. -/
theorem dryRunEnds_iff : DryRunEnds host cfg rules clock st stdin ↔
    quitLine ∈ inputLines stdin ∧
      AllReturn host rules clock 0 (beforeQuit (inputLines stdin)) st := by
  constructor
  · rintro ⟨rounds, s, hrun, -⟩
    exact of_dryRun_returned (coming_dryStart st stdin) hrun
  · rintro ⟨hquit, hall⟩
    exact ⟨_, dryRun_returned (coming_dryStart st stdin) hquit hall⟩

/-- What the dry run writes for the lines of an input, in a round for each. -/
def dryReports : List Report :=
  (dryRun host cfg rules clock (inputLines stdin).length (dryStart st stdin)).1.reports

/-- What the daemon hands on for them. -/
def daemonHandled : List Handled :=
  processingRun host cfg rules clock 0 ((inputLines stdin).map dryEvent) st

/-- The dry run reports an alert for a line if and only if the daemon raises it, and the same
interventions. -/
def Foretells : Prop :=
  ∀ i : ℕ,
    ((∃ r, (dryReports host cfg rules clock st stdin)[i]? = some r ∧ r.alert = true) ↔
      ∃ h, (daemonHandled host cfg rules clock st stdin)[i]? = some h ∧ h.alerts ≠ []) ∧
    ((dryReports host cfg rules clock st stdin)[i]?.map Report.fired).getD [] =
      ((daemonHandled host cfg rules clock st stdin)[i]?.map fun h =>
        h.interventions.map fun x => (x.name, x.argument)).getD []

/-- The events of the input: those before `quit` are not always raised at a low priority, and those
behind it are not raised. -/
def NoHiddenAlert : Prop :=
  ∀ i ev, (eventsFrom host rules clock 0 (inputLines stdin) st)[i]? = some ev →
    if i < (beforeQuit (inputLines stdin)).length then
      ev.alwaysAlert = true → cfg.logPriority ≤ ev.priority
    else ¬ cfg.Raises ev

theorem getElem?_dryReports (i : ℕ) : (dryReports host cfg rules clock st stdin)[i]? =
    if i < (beforeQuit (inputLines stdin)).length then
      (eventsFrom host rules clock 0 (inputLines stdin) st)[i]?.map (report cfg)
    else none := by
  rw [dryReports, dryRun_reports (coming_dryStart st stdin), dryStart, List.nil_append,
    List.length_nil, eventsFrom_beforeQuit, List.getElem?_map, List.getElem?_take]
  split <;> rfl

theorem getElem?_daemonHandled (i : ℕ) : (daemonHandled host cfg rules clock st stdin)[i]? =
    (eventsFrom host rules clock 0 (inputLines stdin) st)[i]?.map (handle cfg) := by
  rw [daemonHandled, processingRun_eq, List.getElem?_map]

end Input

section Decisions

variable {host : Host ρ} {cfg : ResearchConfig} {rules : RuleCfg ρ} {clock : ℕ → ℤ}
  {st : RulesState} {stdin : List Char} {ev : Event}

theorem alerts_handle : (handle cfg ev).alerts ≠ [] ↔ cfg.Raises ev := by
  by_cases hraises : cfg.Raises ev <;> simp [handle, hraises]

theorem alert_report : (report cfg ev).alert = true ↔ cfg.logPriority ≤ ev.priority :=
  decide_eq_true_iff

/-- An event is handled as it is reported, unless it is always raised at a low priority. -/
theorem fired_report (h : cfg.Raises ev ↔ cfg.logPriority ≤ ev.priority) :
    (report cfg ev).fired = (handle cfg ev).interventions.map fun x => (x.name, x.argument) := by
  by_cases hpriority : cfg.logPriority ≤ ev.priority
  · rw [report, if_pos hpriority, handle, if_pos (h.mpr hpriority), requested, List.map_filterMap]
    simp only [Option.map_map]
    rfl
  · rw [report, if_neg hpriority, handle, if_neg fun hraises => hpriority (h.mp hraises)]
    rfl

theorem raises_iff_priority :
    (cfg.Raises ev ↔ cfg.logPriority ≤ ev.priority) ↔
      (ev.alwaysAlert = true → cfg.logPriority ≤ ev.priority) := by
  rw [ResearchConfig.Raises, or_iff_left_iff_imp]

/-- The dry run tells what the daemon does exactly if no alert is hidden from it. -/
theorem foretells_iff : Foretells host cfg rules clock st stdin ↔
    NoHiddenAlert host cfg rules clock st stdin := by
  refine forall_congr' fun i => ?_
  rw [getElem?_dryReports, getElem?_daemonHandled]
  cases (eventsFrom host rules clock 0 (inputLines stdin) st)[i]? with
  | none => simp
  | some ev =>
    simp only [Option.map_some, Option.some.injEq, forall_eq', exists_eq_left', alerts_handle]
    split
    · simp only [Option.map_some, Option.some.injEq, exists_eq_left', alert_report,
        Option.getD_some]
      rw [← raises_iff_priority]
      constructor
      · exact fun h => h.1.symm
      · exact fun h => ⟨h.symm, fired_report h⟩
    · simp only [reduceCtorEq, false_and, exists_false, false_iff, Option.map_none,
        Option.getD_none, and_iff_left_iff_imp]
      intro hraises
      rw [Option.getD_some, handle, if_neg hraises]
      rfl

end Decisions

section Examples

/-- A rule that is always raised, whatever its priority. -/
def flaggedFile : XMLNode := { name := "rule_group", children := [
  { name := "rule", attributes := [("id", "1"), ("priority", "1"), ("always_alert", "true")],
    children := [{ name := "regex", value := "start" }] }] }

/-- Without a line `quit`, the loop does not end. -/
theorem start_not_dryRunEnds : (parseFiles plainHost [flaggedFile]).isOk = true ∧
    ¬ DryRunEnds plainHost {} (plainRules [flaggedFile]) (fun _ => 1) ∅ "start\n".toList := by
  refine ⟨by decide +kernel, ?_⟩
  rintro ⟨rounds, s, hrun, -⟩
  have hquit := (of_dryRun_returned (coming_dryStart ∅ "start\n".toList) hrun).1
  exact absurd hquit (by decide)

/-- The daemon raises an alert that the dry run does not report. -/
theorem flagged_not_foretold : (parseFiles plainHost [flaggedFile]).isOk = true ∧
    (dryReports plainHost { logPriority := 5 } (plainRules [flaggedFile]) (fun _ => 1) ∅
      "start\nquit\n".toList).map Report.alert = [false] ∧
    (daemonHandled plainHost { logPriority := 5 } (plainRules [flaggedFile]) (fun _ => 1) ∅
      "start\nquit\n".toList).map (fun h => h.alerts.map Event.ruleId) = [[1], []] ∧
    ¬ Foretells plainHost { logPriority := 5 } (plainRules [flaggedFile]) (fun _ => 1) ∅
      "start\nquit\n".toList := by
  have hreports : (dryReports plainHost { logPriority := 5 } (plainRules [flaggedFile]) (fun _ => 1)
      ∅ "start\nquit\n".toList).map Report.alert = [false] := by decide +kernel
  have hhandled : (daemonHandled plainHost { logPriority := 5 } (plainRules [flaggedFile])
      (fun _ => 1) ∅ "start\nquit\n".toList).map (fun h => h.alerts.map Event.ruleId) =
      [[1], []] := by decide +kernel
  refine ⟨by decide +kernel, hreports, hhandled, fun h => ?_⟩
  have hfirst := congrArg (·[0]?) hreports
  have hraised := congrArg (·[0]?) hhandled
  simp only [List.getElem?_map, List.getElem?_cons_zero, Option.map_eq_some_iff] at hfirst hraised
  obtain ⟨r, hr, hfalse⟩ := hfirst
  obtain ⟨x, hx, hids⟩ := hraised
  have halerts : x.alerts ≠ [] := by
    intro hnil
    rw [hnil] at hids
    cases hids
  obtain ⟨r', hr', htrue⟩ := (h 0).1.mpr ⟨x, hx, halerts⟩
  rw [hr, Option.some.injEq] at hr'
  rw [← hr', hfalse] at htrue
  cases htrue

end Examples

end Ctguard
