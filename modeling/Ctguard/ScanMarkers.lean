import Ctguard.SnapshotOrder

/-!
# The markers of the scans

A scan is marked three times: where it starts, where its first phase ends, and where it ends. The
main thread puts the first two into the queue of `scan_task`, which puts them into that of
`event_task`; `alert_task` puts the third into the latter when it handles the second. So the
markers of two scans can overtake each other unless a scan is started only when none runs.
-/

namespace Ctguard.AlertTask

variable {unitTest : Bool} {blockSize : ℕ} {s : State} {fd : FileData} {flags : Flags}

inductive Marker where
  | startscan
  | midscan
  | endscan
  deriving DecidableEq, Repr

/-- The marker as which `alert_task` handles a message. -/
def Flags.marker (flags : Flags) : Option Marker :=
  if flags.startscan then some .startscan
  else if flags.midscan then some .midscan
  else if flags.endscan then some .endscan
  else none

theorem marker_of_not_special (h : flags.special = false) : flags.marker = none := by
  simp only [Flags.special, Bool.or_eq_false_iff] at h
  simp [Flags.marker, h]

def markersOf (es : List (String × Flags)) : List Marker := es.filterMap (·.2.marker)

@[simp] theorem markersOf_nil : markersOf [] = [] := rfl

@[simp] theorem markersOf_append (es es' : List (String × Flags)) :
    markersOf (es ++ es') = markersOf es ++ markersOf es' := List.filterMap_append

@[simp] theorem markersOf_cons (e : String × Flags) (es : List (String × Flags)) :
    markersOf (e :: es) = e.2.marker.toList ++ markersOf es := by
  cases h : e.2.marker <;> simp [markersOf, h]

theorem markersOf_map {α : Type} (f : α → String × Flags) (xs : List α)
    (h : ∀ x ∈ xs, (f x).2.marker = none) : markersOf (xs.map f) = [] := by
  rw [markersOf, List.filterMap_map, List.filterMap_eq_nil_iff]
  exact h

section Effects

/-- The state in which the handling of a message ends, also with an exception. -/
def Result.state : Result → State
  | .ok s => s
  | .error (s, _) => s

/-- Neither events are put nor is the scan over. -/
def Quiet (r : Result) (s : State) : Prop :=
  r.state.events = s.events ∧ r.state.scanIsRunning = s.scanIsRunning

theorem insertAll_quiet (fds : List FileData) : Quiet (insertAll fds s) s := by
  induction fds generalizing s with
  | nil => exact ⟨rfl, rfl⟩
  | cons fd fds ih =>
    rw [insertAll]
    cases insertRow fd s.db with
    | error what => exact ⟨rfl, rfl⟩
    | ok db => exact ih

theorem doInsertSet_quiet : Quiet (doInsertSet s) s := by
  have h : Quiet (insertAll (s.insertSet.toList.map Prod.snd) s) s := insertAll_quiet _
  rw [doInsertSet]
  cases hr : insertAll (s.insertSet.toList.map Prod.snd) s with
  | error e =>
    rw [hr] at h
    exact h
  | ok t =>
    rw [hr] at h
    exact h

theorem compareRow_quiet {row : Row} : Quiet (compareRow unitTest blockSize fd flags row s) s := by
  rw [compareRow]
  split
  · simp only
    split
    all_goals exact ⟨rfl, rfl⟩
  split
  · split
    · simp only
      split
      all_goals exact ⟨rfl, rfl⟩
    · exact ⟨rfl, rfl⟩
  · exact ⟨rfl, rfl⟩

theorem insertNew_quiet : Quiet (insertNew blockSize fd s) s := by
  rw [insertNew]
  split
  · simp only
    split
    · exact doInsertSet_quiet
    · exact ⟨rfl, rfl⟩
  · split
    all_goals exact ⟨rfl, rfl⟩

theorem handleFileData_quiet : Quiet (handleFileData unitTest blockSize fd flags s) s := by
  rw [handleFileData]
  split
  · exact ⟨rfl, rfl⟩
  split
  · split
    · exact compareRow_quiet
    · exact ⟨rfl, rfl⟩
  · split
    · exact insertNew_quiet
    · exact ⟨rfl, rfl⟩

theorem markersOf_phaseTwoEvents (db : Table) : markersOf (phaseTwoEvents db) = [.endscan] := by
  rw [phaseTwoEvents, markersOf_append, markersOf_map _ _ (fun _ _ => rfl)]
  rfl

theorem midScan_events : (midScan s).state.events = s.events ++ phaseTwoEvents s.db ∧
    (midScan s).state.scanIsRunning = s.scanIsRunning := by
  have h := doInsertSet_quiet
    (s := { s with events := s.events ++ phaseTwoEvents s.db, inScan := false })
  rw [midScan]
  change (Result.state (doInsertSet { s with
      events := s.events ++ phaseTwoEvents s.db, inScan := false } >>= _)).events = _ ∧
    (Result.state (doInsertSet { s with
      events := s.events ++ phaseTwoEvents s.db, inScan := false } >>= _)).scanIsRunning = _
  cases hr : doInsertSet { s with
      events := s.events ++ phaseTwoEvents s.db, inScan := false } with
  | error e =>
    rw [hr] at h
    exact h
  | ok t =>
    rw [hr] at h
    exact h

/-- The second marker starts the second phase, and the third is the end of the scan. -/
theorem handle_events {m : Message} (hkill : m.flags.kill = false) :
    (handle unitTest blockSize true m s).state.events =
        s.events ++ (if m.flags.marker = some .midscan then phaseTwoEvents s.db else []) ∧
      (handle unitTest blockSize true m s).state.scanIsRunning =
        if m.flags.marker = some .endscan then false else s.scanIsRunning := by
  rw [handle, Flags.marker]
  simp only [hkill, Bool.false_eq_true, false_or, if_false, Bool.true_eq_false]
  split
  · exact ⟨by simp [Result.state, startScan], rfl⟩
  split
  · exact midScan_events
  split
  · exact ⟨by simp [Result.state], rfl⟩
  cases m.fileData with
  | none => exact ⟨by simp [Result.state], rfl⟩
  | some fd => exact ⟨by simp [handleFileData_quiet.1], by simp [handleFileData_quiet.2]⟩

end Effects

section Cycle

/-- The marker at a place of the cycle. -/
def Marker.at (n : ℕ) : Marker :=
  match n % 3 with
  | 0 => .startscan
  | 1 => .midscan
  | _ => .endscan

theorem Marker.at_cases (n : ℕ) : (n % 3 = 0 ∧ Marker.at n = .startscan) ∨
    (n % 3 = 1 ∧ Marker.at n = .midscan) ∨ (n % 3 = 2 ∧ Marker.at n = .endscan) := by
  rcases (by omega : n % 3 = 0 ∨ n % 3 = 1 ∨ n % 3 = 2) with h | h | h
  · exact .inl ⟨h, by simp [Marker.at, h]⟩
  · exact .inr (.inl ⟨h, by simp [Marker.at, h]⟩)
  · exact .inr (.inr ⟨h, by simp [Marker.at, h]⟩)

/-- The markers of scans one after the other. -/
def cycle (n : ℕ) : List Marker := (List.range n).map .at

/-- The two markers that the main thread puts for every scan. -/
def starts (n : ℕ) : List Marker :=
  (List.range n).map fun i => if i % 2 = 0 then .startscan else .midscan

@[simp] theorem length_cycle (n : ℕ) : (cycle n).length = n := by simp [cycle]

@[simp] theorem length_starts (n : ℕ) : (starts n).length = n := by simp [starts]

theorem cycle_succ (n : ℕ) : cycle (n + 1) = cycle n ++ [.at n] := by simp [cycle, List.range_succ]

theorem starts_succ (n : ℕ) :
    starts (n + 1) = starts n ++ [if n % 2 = 0 then .startscan else .midscan] := by
  simp [starts, List.range_succ]

theorem eq_cycle_of_prefix {l : List Marker} {n : ℕ} (h : l <+: cycle n) : l = cycle l.length := by
  have hle : l.length ≤ n := by simpa using h.length_le
  have htake := List.prefix_iff_eq_take.mp h
  calc
    l = (cycle n).take l.length := htake
    _ = cycle l.length := by
      rw [cycle, ← List.map_take, List.take_range, Nat.min_eq_left hle, cycle]

/-- The markers without those of the end. -/
def begun (l : List Marker) : List Marker := l.filter (· ≠ .endscan)

@[simp] theorem begun_append (l l' : List Marker) : begun (l ++ l') = begun l ++ begun l' :=
  List.filter_append ..

theorem begun_cycle (n : ℕ) : begun (cycle n) = starts (n - n / 3) := by
  induction n with
  | zero => rfl
  | succ n ih =>
    rw [cycle_succ, begun_append, ih]
    rcases Marker.at_cases n with ⟨h, hat⟩ | ⟨h, hat⟩ | ⟨h, hat⟩
    · have hnext : n + 1 - (n + 1) / 3 = n - n / 3 + 1 := by omega
      have heven : (n - n / 3) % 2 = 0 := by omega
      rw [hat, hnext, starts_succ, if_pos heven]
      rfl
    · have hnext : n + 1 - (n + 1) / 3 = n - n / 3 + 1 := by omega
      have hodd : ¬ (n - n / 3) % 2 = 0 := by omega
      rw [hat, hnext, starts_succ, if_neg hodd]
      rfl
    · have hnext : n + 1 - (n + 1) / 3 = n - n / 3 := by omega
      rw [hat, hnext]
      exact List.append_nil _

/-- As many scans have ended as thirds of the cycle are complete. -/
theorem count_cycle (n : ℕ) : (cycle n).count .endscan = n / 3 := by
  induction n with
  | zero => rfl
  | succ n ih =>
    rw [cycle_succ, List.count_append, ih]
    rcases Marker.at_cases n with ⟨h, hat⟩ | ⟨h, hat⟩ | ⟨h, hat⟩
    · have hcount : [Marker.at n].count .endscan = 0 := by rw [hat]; rfl
      omega
    · have hcount : [Marker.at n].count .endscan = 0 := by rw [hat]; rfl
      omega
    · have hcount : [Marker.at n].count .endscan = 1 := by rw [hat]; rfl
      omega

end Cycle

end Ctguard.AlertTask

namespace Ctguard.DiskscanDaemon

open AlertTask

variable {host : FileHost} {cfg : DiskscanConfig} {singlerun unitTest : Bool} {printTime : ℤ → String}
  {s s' : State} {db : Table} {diffs : DiffTable} {steps : List Step}

section Flow

def markersIn (hs : List Handed) : List Marker := hs.filterMap (·.message.flags.marker)

@[simp] theorem markersIn_append (hs hs' : List Handed) :
    markersIn (hs ++ hs') = markersIn hs ++ markersIn hs' := List.filterMap_append

@[simp] theorem markersIn_singleton (h : Handed) :
    markersIn [h] = h.message.flags.marker.toList := by
  cases hm : h.message.flags.marker <;> simp [markersIn, hm]

/-- All that was put into the queue of `event_task`. -/
def State.eventPuts (s : State) : List (String × Flags) := s.eventTaken ++ s.eventQueue

theorem State.eventPuts_put (s : State) (e : String × Flags) :
    s.eventTaken ++ (s.eventQueue ++ [e]) = s.eventPuts ++ [e] :=
  (List.append_assoc ..).symm

theorem State.eventPuts_take {s : State} {e : String × Flags} {rest : List (String × Flags)}
    (h : s.eventQueue = e :: rest) : s.eventTaken ++ [e] ++ rest = s.eventPuts := by
  simp [State.eventPuts, h]

/-- What the main thread is about to put for a scan. -/
def MainPhase.puts : MainPhase → List (String × Flags)
  | .queueing puts _ => puts
  | _ => []

/-- A directory comes without a marker. -/
def Named (e : String × Flags) : Prop := e.2.marker ≠ none → e.1 = ""

/-- The main thread puts the beginnings of all scans that were started. -/
structure MainFlow (s : State) : Prop where
  starts : markersOf (s.scanTaken ++ s.scanQueue ++ s.main.puts) = starts (2 * s.scans)
  named : ∀ e ∈ s.scanQueue ++ s.main.puts, Named e

theorem markersOf_scanPuts (cfg : DiskscanConfig) :
    markersOf (scanPuts cfg) = [.startscan, .midscan] := by
  rw [scanPuts, List.cons_append, markersOf_cons, markersOf_append,
    markersOf_map _ _ (fun _ _ => rfl)]
  rfl

theorem named_scanPuts (cfg : DiskscanConfig) : ∀ e ∈ scanPuts cfg, Named e := by
  intro e he hmarker
  simp only [scanPuts, List.cons_append, List.mem_cons, List.mem_append, List.mem_map,
    List.not_mem_nil, or_false] at he
  rcases he with rfl | ⟨w, -, rfl⟩ | rfl
  · rfl
  · exact absurd rfl hmarker
  · rfl

theorem MainFlow.start (h : MainFlow s) {initial : Bool} (hmain : s.main.puts = []) :
    MainFlow (startScan cfg initial s) := by
  obtain ⟨hstarts, hnamed⟩ := h
  rw [hmain, List.append_nil] at hstarts hnamed
  constructor
  · change markersOf (s.scanTaken ++ s.scanQueue ++ scanPuts cfg) =
      AlertTask.starts (2 * (s.scans + 1))
    have hodd : ¬ (2 * s.scans + 1) % 2 = 0 := by omega
    rw [markersOf_append, hstarts, markersOf_scanPuts, Nat.mul_add, starts_succ, starts_succ,
      if_pos (Nat.mul_mod_right 2 _), if_neg hodd, List.append_assoc]
    rfl
  · intro e he
    rcases List.mem_append.mp he with he | he
    · exact hnamed e he
    · exact named_scanPuts cfg e he

/-- Anything without a marker can be put in between. -/
theorem MainFlow.put (h : MainFlow s) {e : String × Flags} (he : e.2.marker = none)
    (htaken : s'.scanTaken = s.scanTaken) (hqueue : s'.scanQueue = s.scanQueue ++ [e])
    (hmain : s'.main.puts = s.main.puts) (hscans : s'.scans = s.scans) : MainFlow s' := by
  constructor
  · rw [htaken, hqueue, hmain, hscans, ← h.starts]
    simp [he]
  · intro x hx
    rw [hqueue, hmain, List.append_assoc, List.mem_append, List.cons_append, List.nil_append,
      List.mem_cons] at hx
    rcases hx with hx | rfl | hx
    · exact h.named x (List.mem_append_left _ hx)
    · exact absurd he
    · exact h.named x (List.mem_append_right _ hx)

theorem MainFlow.take (h : MainFlow s) {e : String × Flags} {rest : List (String × Flags)}
    (hqueue : s.scanQueue = e :: rest) (htaken : s'.scanTaken = s.scanTaken ++ [e])
    (hqueue' : s'.scanQueue = rest) (hmain : s'.main = s.main) (hscans : s'.scans = s.scans) :
    MainFlow s' := by
  constructor
  · rw [htaken, hqueue', hmain, hscans, ← h.starts, hqueue]
    simp
  · intro x hx
    rw [hqueue', hmain] at hx
    apply h.named x
    rw [hqueue]
    exact List.mem_cons_of_mem _ hx

theorem MainFlow.congr (h : MainFlow s) (htaken : s'.scanTaken = s.scanTaken)
    (hqueue : s'.scanQueue = s.scanQueue) (hmain : s'.main.puts = s.main.puts)
    (hscans : s'.scans = s.scans) : MainFlow s' := by
  constructor
  · rw [htaken, hqueue, hmain, hscans]
    exact h.starts
  · rw [hqueue, hmain]
    exact h.named

theorem MainFlow.step (h : MainFlow s) {x : Step}
    (hstep : step host cfg singlerun unitTest printTime s x = some s') : MainFlow s' := by
  have hputs : ∀ {phase : MainPhase}, s.main = phase → phase.puts = [] → s.main.puts = [] := by
    rintro phase rfl hnil
    exact hnil
  cases does_of_step hstep with
  | starts hmain => exact h.start (hputs hmain rfl)
  | @queues e es initial hmain =>
    have hcurrent : s.main.puts = e :: es := by
      rw [hmain]
      rfl
    obtain ⟨hstarts, hnamed⟩ := h
    rw [hcurrent] at hstarts hnamed
    constructor
    · rw [← hstarts]
      simp [MainPhase.puts]
    · intro x hx
      apply hnamed x
      simpa [MainPhase.puts] using hx
  | waits hmain hsingle => exact h.congr rfl rfl (hputs hmain rfl).symm rfl
  | watches hmain hsingle => exact h.congr rfl rfl (hputs hmain rfl).symm rfl
  | resumes hmain => exact h.congr rfl rfl (hputs hmain rfl).symm rfl
  | sees hmain hscan => exact h.congr rfl rfl (hputs hmain rfl).symm rfl
  | stops errors hx hmain => exact h.congr rfl rfl (hputs hmain rfl).symm rfl
  | rescans hmain herrors htimer =>
    exact (h.congr rfl rfl rfl rfl : MainFlow { s with scantimer := 0 }).start (hputs hmain rfl)
  | clears hmain => exact h.congr rfl rfl (hputs hmain rfl).symm rfl
  | killsScan hmain =>
    refine h.put (e := killEvent) rfl rfl rfl ?_ rfl
    rw [hputs hmain rfl]
    cases singlerun <;> rfl
  | killsRtevent hmain => exact h.congr rfl rfl (hputs hmain rfl).symm rfl
  | joins hmain hended => exact h.congr rfl rfl (hputs hmain rfl).symm rfl
  | lists found hphase hqueue hkill hrunning => exact h.take hqueue rfl rfl rfl rfl
  | takesScanKill found hphase hqueue hkill => exact h.take hqueue rfl rfl rfl rfl
  | creates hwatch => exact h.put rfl rfl rfl rfl rfl
  | @puts p ps ending now hphase => cases p <;> exact h.congr rfl rfl rfl rfl
  | @fails w hawake => cases w <;> exact h.congr rfl rfl rfl rfl
  | _ => exact h.congr rfl rfl rfl rfl

/-- `scan_task` puts what it has taken, while it goes on. -/
def ScanPhase.Flow (taken put : List Marker) : ScanPhase → Prop
  | .loop => put = taken
  | .putting puts false => put ++ markersOf puts = taken
  | .putting puts true => put <+: taken ∧ markersOf puts = []
  | .leaving => put <+: taken
  | .ended => put <+: taken

theorem ScanPhase.Flow.isPrefix {taken put : List Marker} {phase : ScanPhase}
    (h : phase.Flow taken put) : put <+: taken := by
  unfold ScanPhase.Flow at h
  split at h
  · exact h ▸ List.prefix_rfl
  · exact ⟨_, h⟩
  · exact h.1
  · exact h
  · exact h

def EventPhase.Flow (taken put : List Marker) : EventPhase → Prop
  | .loop => put = taken
  | .examining _ _ => put = taken
  | .putting h _ => put ++ markersIn [h] = taken
  | .leaving => put <+: taken
  | .ended => put <+: taken

theorem EventPhase.Flow.isPrefix {taken put : List Marker} {phase : EventPhase}
    (h : phase.Flow taken put) : put <+: taken := by
  unfold EventPhase.Flow at h
  split at h
  · exact h ▸ List.prefix_rfl
  · exact h ▸ List.prefix_rfl
  · exact ⟨_, h⟩
  · exact h
  · exact h

/-- The markers among the events that `alert_task` is about to put. -/
def Put.marker : Put → Option Marker
  | .event e => e.2.marker
  | .alert _ => none
  | .kill => none

def AlertPhase.markers : AlertPhase → List Marker
  | .putting puts _ => puts.filterMap Put.marker
  | _ => []

/-- Only the last marker comes from `alert_task`. -/
def AlertPhase.EndsOnly (phase : AlertPhase) : Prop := ∀ m ∈ phase.markers, m = .endscan

/-- The markers of a scan go through the tasks in order. -/
structure Flow (s : State) : Prop where
  main : MainFlow s
  scan : s.scanTask.Flow (markersOf s.scanTaken) (begun (markersOf s.eventPuts))
  event : s.eventTask.Flow (markersOf s.eventTaken) (markersIn s.arrivals)
  sources : Sources s
  rtevent : ∀ h, s.rteventTask.held = some h → h.message.flags.marker = none
  ends : s.alertTask.EndsOnly
  handled : s.handled <+: s.dataTaken
  alive : s.alertTask.alive = true → s.handled = s.dataTaken

/-- What `scan_task` puts for an entry has the same marker. -/
theorem markersOf_scanEvents {e : String × Flags} (hnamed : Named e) (found : List String) :
    markersOf (scanEvents e found) = e.2.marker.toList := by
  rw [scanEvents]
  by_cases hpath : e.1 = ""
  · rw [if_pos hpath]
    by_cases hspecial : e.2.special = true
    · simp [if_pos hspecial]
    · rw [if_neg hspecial, marker_of_not_special (Bool.not_eq_true _ ▸ hspecial)]
      rfl
  · have hnone : e.2.marker = none := by
      by_contra hmarker
      exact hpath (hnamed hmarker)
    rw [if_neg hpath, hnone, markersOf_map _ _ (fun _ _ => rfl)]
    rfl

theorem begun_of_mem_starts {l : List Marker} {n : ℕ} (h : ∀ m ∈ l, m ∈ starts n) :
    begun l = l := by
  rw [begun, List.filter_eq_self]
  intro m hm
  obtain ⟨i, -, rfl⟩ := List.mem_map.mp (h m hm)
  split
  all_goals simp

theorem Flow.begun_taken (h : Flow s) {l : List Marker} (hl : ∀ m ∈ l, m ∈ markersOf s.scanTaken) :
    begun l = l := by
  apply begun_of_mem_starts
  intro m hm
  rw [← h.main.starts, List.append_assoc, markersOf_append]
  exact List.mem_append_left _ (hl m hm)

/-- Putting something without a marker. -/
theorem ScanPhase.Flow.congr {taken put put' : List Marker} {phase : ScanPhase}
    (h : phase.Flow taken put) (hput : put' = put) : phase.Flow taken put' := hput ▸ h

theorem Flow.scan_step (h : Flow s) {x : Step}
    (hstep : step host cfg singlerun unitTest printTime s x = some s') :
    s'.scanTask.Flow (markersOf s'.scanTaken) (begun (markersOf s'.eventPuts)) := by
  have hscan := h.scan
  cases does_of_step hstep with
  | @lists e rest found hphase hqueue hkill hrunning =>
    rw [hphase] at hscan
    have hnamed : Named e := h.main.named e (by simp [hqueue])
    change begun (markersOf s.eventPuts) ++ markersOf (scanEvents e found) =
      markersOf (s.scanTaken ++ [e])
    rw [markersOf_scanEvents hnamed, hscan]
    simp
  | @takesScanKill e rest found hphase hqueue hkill =>
    refine ⟨?_, rfl⟩
    rw [markersOf_append]
    exact hscan.isPrefix.trans (List.prefix_append _ _)
  | @putsScan e es stop found hphase =>
    rw [hphase] at hscan
    change (ScanPhase.putting es stop).Flow (markersOf s.scanTaken)
      (begun (markersOf (s.eventTaken ++ (s.eventQueue ++ [e]))))
    rw [s.eventPuts_put, markersOf_append, begun_append]
    cases stop with
    | false =>
      have htaken : begun (markersOf s.eventPuts) ++ markersOf (e :: es) = markersOf s.scanTaken :=
        hscan
      have hbegun : begun (markersOf [e]) = markersOf [e] := by
        apply h.begun_taken
        intro m hm
        rw [← htaken, markersOf_cons]
        simp only [markersOf_cons, markersOf_nil, List.append_nil] at hm
        exact List.mem_append_right _ (List.mem_append_left _ hm)
      change begun (markersOf s.eventPuts) ++ begun (markersOf [e]) ++ markersOf es = _
      rw [hbegun, ← htaken]
      simp
    | true =>
      obtain ⟨hfront, hnone⟩ := hscan
      rw [markersOf_cons, List.append_eq_nil_iff] at hnone
      refine ⟨?_, hnone.2⟩
      simpa [hnone.1, begun] using hfront
  | @nextScan stop found hphase =>
    rw [hphase] at hscan
    cases stop with
    | false => exact (List.append_nil _).symm.trans hscan
    | true => exact hscan.1
  | leavesScan found hphase =>
    change begun (markersOf (s.eventTaken ++ (s.eventQueue ++ [killEvent]))) <+: _
    rw [s.eventPuts_put, markersOf_append, begun_append]
    exact (List.append_nil _).symm ▸ hscan.isPrefix
  | takesEvent hphase hqueue hspecial hrunning =>
    exact hscan.congr (by rw [← State.eventPuts_take hqueue]; rfl)
  | takesSpecial stop hphase hqueue hspecial hstop =>
    exact hscan.congr (by rw [← State.eventPuts_take hqueue]; rfl)
  | @puts p ps ending now hphase =>
    cases p with
    | event e =>
      have hends : ∀ m ∈ e.2.marker.toList, m = .endscan := by
        intro m hm
        apply h.ends
        rw [hphase]
        exact List.mem_filterMap.mpr ⟨.event e, List.mem_cons_self, Option.mem_toList.mp hm⟩
      have hnone : begun e.2.marker.toList = [] := by
        rw [begun, List.filter_eq_nil_iff]
        intro m hm
        simp [hends m hm]
      refine hscan.congr ?_
      change begun (markersOf (s.eventTaken ++ (s.eventQueue ++ [e]))) = _
      rw [s.eventPuts_put]
      simp [hnone]
    | alert a => exact hscan
    | kill => exact hscan
  | @fails w hawake =>
    cases w with
    | scan => exact hscan.isPrefix
    | _ => exact hscan
  | _ => exact hscan

theorem Flow.event_step (h : Flow s) {x : Step}
    (hstep : step host cfg singlerun unitTest printTime s x = some s') :
    s'.eventTask.Flow (markersOf s'.eventTaken) (markersIn s'.arrivals) := by
  have hevent := h.event
  have hunmarked : ∀ {hd : Handed}, hd.message.flags.marker = none →
      s.eventTask.Flow (markersOf s.eventTaken)
        (markersIn (s.dataTaken ++ (s.fileDataQueue ++ [hd]))) := by
    intro hd hnone
    rw [s.arrivals_put, markersIn_append, markersIn_singleton, hnone, Option.toList_none,
      List.append_nil]
    exact hevent
  cases does_of_step hstep with
  | @takesEvent e rest hphase hqueue hspecial hrunning =>
    rw [hphase] at hevent
    change markersIn s.arrivals = markersOf (s.eventTaken ++ [e])
    rw [markersOf_append, markersOf_cons, marker_of_not_special hspecial]
    exact hevent.trans (List.append_nil _).symm
  | @takesSpecial e rest stop hphase hqueue hspecial hstop =>
    rw [hphase] at hevent
    change markersIn s.arrivals ++ markersIn [specialHanded e.2] = markersOf (s.eventTaken ++ [e])
    rw [markersOf_append, ← hevent, markersIn_singleton, markersOf_cons]
    exact congrArg _ (List.append_nil _).symm
  | @putsHanded hd stop hphase =>
    rw [hphase] at hevent
    have hnow : markersIn (s.dataTaken ++ (s.fileDataQueue ++ [hd])) = markersOf s.eventTaken := by
      rw [s.arrivals_put, markersIn_append]
      exact hevent
    cases stop with
    | false => exact hnow
    | true => exact hnow ▸ List.prefix_rfl
  | leavesEvent hphase =>
    change markersIn (s.dataTaken ++ (s.fileDataQueue ++ [killHanded])) <+: _
    rw [s.arrivals_put, markersIn_append]
    exact (List.append_nil _).symm ▸ hevent.isPrefix
  | examines hphase hresult =>
    have hplain := h.sources.event _ _ hphase
    rw [hphase] at hevent
    change markersIn s.arrivals ++ markersIn [_] = markersOf s.eventTaken
    rw [markersIn_singleton, marker_of_not_special hplain]
    exact (List.append_nil _).trans hevent
  | examinesNot hphase hresult => exact hevent.isPrefix
  | putsRealtime now hphase => exact hunmarked (h.rtevent _ (by rw [hphase]; rfl))
  | leavesRtevent now hphase => exact hunmarked rfl
  | takesKill now hphase hqueue hkill =>
    change s.eventTask.Flow _ (markersIn (s.dataTaken ++ [_] ++ _))
    rw [State.arrivals_take hqueue]
    exact hevent
  | handles now hphase hqueue hkill hrunning hresult =>
    change s.eventTask.Flow _ (markersIn (s.dataTaken ++ [_] ++ _))
    rw [State.arrivals_take hqueue]
    exact hevent
  | @puts p ps ending now hphase => cases p <;> exact hevent
  | @fails w hawake =>
    cases w with
    | event => exact hevent.isPrefix
    | _ => exact hevent
  | _ => exact hevent

theorem Flow.rtevent_step (h : Flow s) {x : Step}
    (hstep : step host cfg singlerun unitTest printTime s x = some s') :
    ∀ hd, s'.rteventTask.held = some hd → hd.message.flags.marker = none := by
  have hrtevent := h.rtevent
  have hnot : ∀ hd : Handed, none = some hd → hd.message.flags.marker = none := by
    rintro hd ⟨⟩
  cases does_of_step hstep with
  | watches hmain hsingle => exact hnot
  | seesKill now hphase hqueue hkill =>
    rintro hd ⟨⟩
    rfl
  | takesRtevent now hphase hqueue hkill hrunning => exact hnot
  | @putsRealtime hd stop now hphase => cases stop <;> exact hnot
  | leavesRtevent now hphase => exact hnot
  | examinesRealtime hphase hresult =>
    rintro hd ⟨⟩
    exact marker_of_not_special (h.sources.rtevent _ _ hphase)
  | examinesRealtimeNot hphase hresult => exact hnot
  | @puts p ps ending now hphase => cases p <;> exact hrtevent
  | @fails w hawake =>
    cases w with
    | rtevent => exact hnot
    | _ => exact hrtevent
  | _ => exact hrtevent

@[simp] theorem markers_putting (puts : List Put) (ending : Ending) :
    (AlertPhase.putting puts ending).markers = puts.filterMap Put.marker := rfl

@[simp] theorem markers_tablePuts (t : AlertTask.State) :
    (tablePuts t).filterMap Put.marker = markersOf t.events := by
  have halerts : (t.alerts.map Put.alert).filterMap Put.marker = [] := by
    rw [List.filterMap_map, List.filterMap_eq_nil_iff]
    exact fun _ _ => rfl
  rw [tablePuts, List.filterMap_append, halerts, List.append_nil, List.filterMap_map]
  rfl

/-- What handling a message puts, and whether the scan is over. -/
theorem events_of_result {hd : Handed} {t : AlertTask.State} {ending : Ending}
    (hkill : hd.message.flags.kill = false)
    (hresult : (ending = .goesOn ∧
        handle unitTest cfg.blockSize true hd.message s.fresh = .ok t) ∨
      (ending = .throws ∧ ∃ what,
        handle unitTest cfg.blockSize true hd.message s.fresh = .error (t, what))) :
    t.events = (if hd.message.flags.marker = some .midscan then phaseTwoEvents s.table.db else []) ∧
      t.scanIsRunning =
        if hd.message.flags.marker = some .endscan then false else s.scanIsRunning := by
  have h : (handle unitTest cfg.blockSize true hd.message s.fresh).state.events = _ ∧
      (handle unitTest cfg.blockSize true hd.message s.fresh).state.scanIsRunning = _ :=
    handle_events hkill
  rcases hresult with ⟨-, hok⟩ | ⟨-, what, herror⟩
  · rw [hok] at h
    exact h
  · rw [herror] at h
    exact h

theorem markersOf_events {marker : Option Marker} {db : Table} :
    markersOf (if marker = some .midscan then phaseTwoEvents db else []) =
      if marker = some .midscan then [.endscan] else [] := by
  split
  · exact markersOf_phaseTwoEvents db
  · rfl

theorem Flow.alert_step (h : Flow s) {x : Step}
    (hstep : step host cfg singlerun unitTest printTime s x = some s') :
    s'.alertTask.EndsOnly ∧ s'.handled <+: s'.dataTaken ∧
      (s'.alertTask.alive = true → s'.handled = s'.dataTaken) := by
  have hkeeps : s.alertTask.EndsOnly ∧ s.handled <+: s.dataTaken ∧
      (s.alertTask.alive = true → s.handled = s.dataTaken) := ⟨h.ends, h.handled, h.alive⟩
  have hnone : ∀ m ∈ ([] : List Marker), m = .endscan := by simp
  cases does_of_step hstep with
  | opens now hphase => exact ⟨hnone, h.handled, fun _ => h.alive (by rw [hphase]; rfl)⟩
  | takesKill now hphase hqueue hkill =>
    exact ⟨hnone, h.handled.trans (List.prefix_append _ _), fun halive => by cases halive⟩
  | @handles hd rest t ending now hphase hqueue hkill hrunning hresult =>
    have heq : s.handled = s.dataTaken := h.alive (by rw [hphase]; rfl)
    have hboth : s.handled ++ [hd] = s.dataTaken ++ [hd] := by rw [heq]
    refine ⟨?_, hboth ▸ List.prefix_rfl, fun _ => hboth⟩
    intro m hm
    rw [markers_putting, markers_tablePuts, (events_of_result hkill hresult).1,
      markersOf_events] at hm
    split at hm
    · exact List.mem_singleton.mp hm
    · cases hm
  | @puts p ps ending now hphase =>
    have hends : (AlertPhase.putting ps ending).EndsOnly := by
      intro m hm
      apply h.ends
      rw [hphase]
      obtain ⟨q, hq, hmarker⟩ := List.mem_filterMap.mp hm
      exact List.mem_filterMap.mpr ⟨q, List.mem_cons_of_mem _ hq, hmarker⟩
    have halive : (AlertPhase.putting ps ending).alive = true → s.handled = s.dataTaken := by
      intro hs'
      apply h.alive
      rw [hphase]
      exact hs'
    cases p <;> exact ⟨hends, h.handled, halive⟩
  | goesOn now hphase => exact ⟨hnone, h.handled, fun _ => h.alive (by rw [hphase]; rfl)⟩
  | returns now hphase => exact ⟨hnone, h.handled, fun halive => by cases halive⟩
  | throws now hphase => exact ⟨hnone, h.handled, fun halive => by cases halive⟩
  | leavesAlert now hphase => exact ⟨hnone, h.handled, fun halive => by cases halive⟩
  | @fails w hawake =>
    cases w with
    | alert => exact ⟨hnone, h.handled, fun halive => by cases halive⟩
    | _ => exact hkeeps
  | _ => exact hkeeps

theorem Flow.step (h : Flow s) {x : Step}
    (hstep : step host cfg singlerun unitTest printTime s x = some s') : Flow s' := by
  obtain ⟨hends, hhandled, halive⟩ := h.alert_step hstep
  exact ⟨h.main.step hstep, h.scan_step hstep, h.event_step hstep, h.sources.step hstep,
    h.rtevent_step hstep, hends, hhandled, halive⟩

/-- The markers that were handled are the first ones of those put for `event_task`. -/
theorem Flow.handled_isPrefix (h : Flow s) : markersIn s.handled <+: markersOf s.eventPuts := by
  have hhandled : markersIn s.handled <+: markersIn s.arrivals :=
    (h.handled.trans (List.prefix_append _ _)).filterMap _
  have htaken : markersOf s.eventTaken <+: markersOf s.eventPuts := by
    rw [State.eventPuts, markersOf_append]
    exact List.prefix_append _ _
  exact hhandled.trans (h.event.isPrefix.trans htaken)

theorem Flow.taken_isPrefix (h : Flow s) : markersOf s.scanTaken <+: starts (2 * s.scans) := by
  rw [← h.main.starts, List.append_assoc, markersOf_append]
  exact List.prefix_append _ _

theorem Flow.begun_isPrefix (h : Flow s) :
    begun (markersOf s.eventPuts) <+: starts (2 * s.scans) :=
  h.scan.isPrefix.trans h.taken_isPrefix

end Flow

section Turns

/-- A scan is started only when none runs. -/
def StartsInTurn (cfg : DiskscanConfig) (s : State) (x : Step) : Prop :=
  x = .timeout → s.main = .waiting → s.errorStack = [] → cfg.scaninterval ≤ s.scantimer + 1 →
    s.scanIsRunning = false

/-- How many markers were put for `event_task`, and how many of them were handled. -/
def State.putCount (s : State) : ℕ := (markersOf s.eventPuts).length

def State.handledCount (s : State) : ℕ := (markersIn s.handled).length

/-- The scans take turns: only the last of them may be under way. Its end is put once its second
marker is handled. -/
structure Turns (s : State) : Prop where
  flow : Flow s
  cyclic : markersOf s.eventPuts = cycle s.putCount
  started : 3 * s.scans ≤ s.handledCount + 3
  complete : 3 * s.scans ≤ s.putCount → 3 * s.scans ≤ s.handledCount + 1
  idle : s.scanIsRunning = false ↔ s.handledCount = 3 * s.scans
  ends : s.alertTask.markers ≠ [] → s.alertTask.markers = [.endscan] ∧
    s.handledCount + 1 = 3 * s.scans ∧ s.putCount + 1 = 3 * s.scans
  starting : s.main = .starting → s.scans = 0

theorem Turns.handled_le (h : Turns s) : s.handledCount ≤ s.putCount :=
  h.flow.handled_isPrefix.length_le

theorem Turns.put_le (h : Turns s) : s.putCount ≤ 3 * s.scans := by
  have hbegun := h.flow.begun_isPrefix.length_le
  rw [h.cyclic, begun_cycle, length_starts, length_starts] at hbegun
  omega

theorem Turns.handled_eq (h : Turns s) : markersIn s.handled = cycle s.handledCount :=
  eq_cycle_of_prefix (h.cyclic ▸ h.flow.handled_isPrefix)

/-- What moves no marker into the queue of `event_task` or out of that of `alert_task`. -/
theorem Turns.congr (h : Turns s) (hflow : Flow s')
    (hputs : markersOf s'.eventPuts = markersOf s.eventPuts)
    (hhandled : markersIn s'.handled = markersIn s.handled) (hscans : s'.scans = s.scans)
    (hrunning : s'.scanIsRunning = s.scanIsRunning)
    (hmarkers : s'.alertTask.markers = s.alertTask.markers ∨ s'.alertTask.markers = [])
    (hstarting : s'.main = .starting → s.main = .starting) : Turns s' := by
  have hput : s'.putCount = s.putCount := congrArg List.length hputs
  have hdone : s'.handledCount = s.handledCount := congrArg List.length hhandled
  constructor
  · exact hflow
  · rw [hputs, hput, h.cyclic]
  · rw [hscans, hdone]
    exact h.started
  · rw [hscans, hdone, hput]
    exact h.complete
  · rw [hscans, hdone, hrunning]
    exact h.idle
  · rw [hscans, hdone, hput]
    rcases hmarkers with heq | hnil
    · rw [heq]
      exact h.ends
    · intro hne
      exact absurd hnil hne
  · intro hs'
    rw [hscans]
    exact h.starting (hstarting hs')

/-- A scan is started when none runs. -/
theorem Turns.start (h : Turns s) (hflow : Flow s') (hputs : s'.eventPuts = s.eventPuts)
    (hhandled : s'.handled = s.handled) (hscans : s'.scans = s.scans + 1)
    (hrunning : s'.scanIsRunning = true) (halert : s'.alertTask = s.alertTask)
    (hmain : s'.main ≠ .starting) (hidle : s.handledCount = 3 * s.scans) : Turns s' := by
  have hle := h.handled_le
  have hput_le := h.put_le
  have hput : s'.putCount = s.putCount := by rw [State.putCount, hputs]; rfl
  have hdone : s'.handledCount = s.handledCount := by rw [State.handledCount, hhandled]; rfl
  constructor
  · exact hflow
  · rw [hputs, hput]
    exact h.cyclic
  · omega
  · omega
  · rw [hrunning]
    exact iff_of_false (by simp) (by omega)
  · intro hne
    rw [halert] at hne
    have hends := (h.ends hne).2.1
    omega
  · intro hs'
    exact absurd hs' hmain

/-- The next marker of a scan gets into the queue of `event_task`. -/
theorem Turns.put (h : Turns s) {m : Marker} (hflow : Flow s')
    (hputs : markersOf s'.eventPuts = markersOf s.eventPuts ++ [m])
    (hhandled : s'.handled = s.handled) (hscans : s'.scans = s.scans)
    (hrunning : s'.scanIsRunning = s.scanIsRunning) (hm : m = .at s.putCount)
    (hends : s'.alertTask.markers = [])
    (hcomplete : 3 * s.scans ≤ s.putCount + 1 → 3 * s.scans ≤ s.handledCount + 1)
    (hstarting : s'.main = s.main) : Turns s' := by
  have hput : s'.putCount = s.putCount + 1 := by
    rw [State.putCount, hputs, List.length_append]
    rfl
  have hdone : s'.handledCount = s.handledCount := by rw [State.handledCount, hhandled]; rfl
  constructor
  · exact hflow
  · rw [hputs, hput, h.cyclic, cycle_succ, hm]
  · rw [hscans, hdone]
    exact h.started
  · rw [hscans, hdone, hput]
    exact hcomplete
  · rw [hscans, hdone, hrunning]
    exact h.idle
  · intro hne
    exact absurd hends hne
  · rw [hscans, hstarting]
    exact h.starting

/-- A marker that `scan_task` puts is the next one: the previous scan is over. -/
theorem Turns.put_scan (h : Turns s) {m : Marker}
    (hm : begun (markersOf s.eventPuts) ++ [m] <+: starts (2 * s.scans)) :
    m = .at s.putCount ∧ s.putCount + 1 < 3 * s.scans := by
  have hle := h.handled_le
  have hstarted := h.started
  rw [h.cyclic, begun_cycle] at hm
  have hlt : s.putCount - s.putCount / 3 + 1 ≤ 2 * s.scans := by simpa using hm.length_le
  have hmod : s.putCount % 3 ≠ 2 := by omega
  refine ⟨?_, by omega⟩
  have hnext : starts (s.putCount - s.putCount / 3) ++ [m] =
      starts (s.putCount - s.putCount / 3 + 1) := by
    rw [List.prefix_iff_eq_take.mp hm]
    simp only [starts, List.length_append, List.length_map, List.length_range,
      List.length_singleton]
    rw [← List.map_take, List.take_range, Nat.min_eq_left hlt]
  rw [starts_succ, List.append_cancel_left_eq, List.cons.injEq] at hnext
  rcases Marker.at_cases s.putCount with ⟨hzero, hat⟩ | ⟨hone, hat⟩ | ⟨htwo, -⟩
  · rw [hnext.1, hat, if_pos (by omega)]
  · rw [hnext.1, hat, if_neg (by omega)]
  · exact absurd htwo hmod

/-- A marker is handled in its turn. -/
theorem Turns.handle (h : Turns s) {m : Marker} (hflow : Flow s')
    (hputs : s'.eventPuts = s.eventPuts)
    (hhandled : markersIn s'.handled = markersIn s.handled ++ [m]) (hscans : s'.scans = s.scans)
    (hrunning : s'.scanIsRunning = if m = .endscan then false else s.scanIsRunning)
    (hmarkers : s'.alertTask.markers = if m = .midscan then [.endscan] else [])
    (hstarting : s'.main = s.main) : Turns s' := by
  have hput : s'.putCount = s.putCount := by rw [State.putCount, hputs]; rfl
  have hdone : s'.handledCount = s.handledCount + 1 := by
    rw [State.handledCount, hhandled, List.length_append]
    rfl
  have hfront : markersIn s'.handled <+: cycle s.putCount := by
    rw [← h.cyclic, ← hputs]
    exact hflow.handled_isPrefix
  have hlt : s.handledCount + 1 ≤ s.putCount := by
    rw [← hdone, State.handledCount]
    simpa using hfront.length_le
  have hm : m = .at s.handledCount := by
    have heq := eq_cycle_of_prefix hfront
    rw [hhandled, h.handled_eq, List.length_append, length_cycle, List.length_singleton,
      cycle_succ, List.append_cancel_left_eq, List.cons.injEq] at heq
    exact heq.1
  have hput_le := h.put_le
  have hstarted := h.started
  have hcomplete := h.complete
  have hat := Marker.at_cases s.handledCount
  rw [← hm] at hat
  constructor
  · exact hflow
  · rw [hputs, hput]
    exact h.cyclic
  · omega
  · omega
  · rw [hrunning]
    by_cases hend : m = .endscan
    · have hmod : s.handledCount % 3 = 2 := by simpa [hend] using hat
      exact iff_of_true (if_pos hend) (by omega)
    · have hmod : s.handledCount % 3 ≠ 2 := by
        intro hmod
        exact hend (by simpa [hmod] using hat)
      rw [if_neg hend, h.idle]
      omega
  · intro hne
    by_cases hmid : m = .midscan
    · have hmod : s.handledCount % 3 = 1 := by simpa [hmid] using hat
      refine ⟨by rw [hmarkers, if_pos hmid], ?_⟩
      omega
    · rw [hmarkers, if_neg hmid] at hne
      exact absurd rfl hne
  · rw [hscans, hstarting]
    exact h.starting

theorem Turns.step (h : Turns s) {x : Step} (hturn : StartsInTurn cfg s x)
    (hstep : step host cfg singlerun unitTest printTime s x = some s') : Turns s' := by
  have hflow := h.flow.step hstep
  have hkeeps : markersOf s'.eventPuts = markersOf s.eventPuts →
      markersIn s'.handled = markersIn s.handled → s'.scans = s.scans →
      s'.scanIsRunning = s.scanIsRunning →
      (s'.alertTask.markers = s.alertTask.markers ∨ s'.alertTask.markers = []) →
      (s'.main = .starting → s.main = .starting) → Turns s' := h.congr hflow
  cases does_of_step hstep with
  | starts hmain =>
    have hscans := h.starting hmain
    have hle := h.handled_le
    have hput_le := h.put_le
    exact h.start hflow rfl rfl rfl rfl rfl (fun hs' => by cases hs') (by omega)
  | rescans hmain herrors htimer =>
    have hidle := h.idle.mp (hturn rfl hmain herrors htimer)
    exact h.start hflow rfl rfl rfl rfl rfl (fun hs' => by cases hs') hidle
  | queues hmain => exact hkeeps rfl rfl rfl rfl (.inl rfl) (fun hs' => by cases hs')
  | waits hmain hsingle => exact hkeeps rfl rfl rfl rfl (.inl rfl) (fun hs' => by cases hs')
  | watches hmain hsingle => exact hkeeps rfl rfl rfl rfl (.inl rfl) (fun hs' => by cases hs')
  | resumes hmain => exact hkeeps rfl rfl rfl rfl (.inl rfl) (fun hs' => by cases hs')
  | sees hmain hscan => exact hkeeps rfl rfl rfl rfl (.inl rfl) (fun hs' => by cases hs')
  | stops errors hx hmain => exact hkeeps rfl rfl rfl rfl (.inl rfl) (fun hs' => by cases hs')
  | clears hmain => exact hkeeps rfl rfl rfl rfl (.inl rfl) (fun hs' => by cases hs')
  | killsScan hmain =>
    exact hkeeps rfl rfl rfl rfl (.inl rfl) (fun hs' => by cases singlerun <;> cases hs')
  | killsRtevent hmain => exact hkeeps rfl rfl rfl rfl (.inl rfl) (fun hs' => by cases hs')
  | joins hmain hended => exact hkeeps rfl rfl rfl rfl (.inl rfl) (fun hs' => by cases hs')
  | @putsScan e es stop found hphase =>
    have hputs : markersOf (s.eventTaken ++ (s.eventQueue ++ [e])) =
        markersOf s.eventPuts ++ e.2.marker.toList := by
      rw [s.eventPuts_put, markersOf_append, markersOf_cons, markersOf_nil, List.append_nil]
    cases hm : e.2.marker with
    | none =>
      rw [hm] at hputs
      exact hkeeps (hputs.trans (List.append_nil _)) rfl rfl rfl (.inl rfl) id
    | some m =>
      rw [hm] at hputs
      have hscan := h.flow.scan
      rw [hphase] at hscan
      cases stop with
      | true => simp [ScanPhase.Flow, hm] at hscan
      | false =>
        have hnext : begun (markersOf s.eventPuts) ++ [m] <+: starts (2 * s.scans) := by
          refine .trans ⟨markersOf es, ?_⟩ h.flow.taken_isPrefix
          rw [← show begun (markersOf s.eventPuts) ++ markersOf (e :: es) = _ from hscan,
            markersOf_cons, hm, List.append_assoc]
          rfl
        obtain ⟨hat, hlt⟩ := h.put_scan hnext
        have hends : s.alertTask.markers = [] := by
          by_contra hne
          have := (h.ends hne).2.2
          omega
        exact h.put hflow hputs rfl rfl rfl hat hends (by omega) rfl
  | leavesScan found hphase =>
    refine hkeeps ?_ rfl rfl rfl (.inl rfl) id
    change markersOf (s.eventTaken ++ (s.eventQueue ++ [killEvent])) = _
    rw [s.eventPuts_put, markersOf_append]
    exact List.append_nil _
  | takesEvent hphase hqueue hspecial hrunning =>
    refine hkeeps ?_ rfl rfl rfl (.inl rfl) id
    rw [← State.eventPuts_take hqueue]
    rfl
  | takesSpecial stop hphase hqueue hspecial hstop =>
    refine hkeeps ?_ rfl rfl rfl (.inl rfl) id
    rw [← State.eventPuts_take hqueue]
    rfl
  | opens now hphase => exact hkeeps rfl rfl rfl rfl (.inr rfl) id
  | takesKill now hphase hqueue hkill => exact hkeeps rfl rfl rfl rfl (.inr rfl) id
  | @handles hd rest t ending now hphase hqueue hkill hrunning hresult =>
    obtain ⟨hputs, hover⟩ := events_of_result hkill hresult
    have hevents := (congrArg markersOf hputs).trans markersOf_events
    cases hm : hd.message.flags.marker with
    | none =>
      rw [hm] at hevents hover
      refine hkeeps rfl ?_ rfl hover (.inr ?_) id
      · simp [hm]
      · rw [markers_putting, markers_tablePuts]
        exact hevents
    | some m =>
      rw [hm] at hevents hover
      refine h.handle (m := m) hflow rfl ?_ rfl ?_ ?_ rfl
      · simp [hm]
      · simpa using hover
      · rw [markers_putting, markers_tablePuts]
        simpa using hevents
  | @puts p ps ending now hphase =>
    have hmarkers : s.alertTask.markers = (p :: ps).filterMap Put.marker := by
      rw [hphase]
      rfl
    cases p with
    | alert a => exact hkeeps rfl rfl rfl rfl (.inl hmarkers.symm) id
    | kill => exact hkeeps rfl rfl rfl rfl (.inl hmarkers.symm) id
    | event e =>
      have hputs : markersOf (s.eventTaken ++ (s.eventQueue ++ [e])) =
          markersOf s.eventPuts ++ e.2.marker.toList := by
        rw [s.eventPuts_put, markersOf_append, markersOf_cons, markersOf_nil, List.append_nil]
      cases hm : e.2.marker with
      | none =>
        rw [hm] at hputs
        refine hkeeps (hputs.trans (List.append_nil _)) rfl rfl rfl (.inl ?_) id
        rw [hmarkers]
        exact (List.filterMap_cons_none (show Put.marker (.event e) = none from hm)).symm
      | some m =>
        rw [hm] at hputs
        rw [List.filterMap_cons_some (show Put.marker (.event e) = some m from hm)] at hmarkers
        obtain ⟨hend, hdone, hlast⟩ := h.ends (by simp [hmarkers])
        rw [hmarkers, List.cons.injEq] at hend
        have hat : m = .at s.putCount := by
          rcases Marker.at_cases s.putCount with ⟨hmod, -⟩ | ⟨hmod, -⟩ | ⟨-, hat⟩
          · omega
          · omega
          · rw [hend.1, hat]
        exact h.put hflow hputs rfl rfl rfl hat hend.2 (by omega) rfl
  | goesOn now hphase => exact hkeeps rfl rfl rfl rfl (.inr rfl) id
  | returns now hphase => exact hkeeps rfl rfl rfl rfl (.inr rfl) id
  | throws now hphase => exact hkeeps rfl rfl rfl rfl (.inr rfl) id
  | leavesAlert now hphase => exact hkeeps rfl rfl rfl rfl (.inr rfl) id
  | @fails w hawake =>
    cases w with
    | alert => exact hkeeps rfl rfl rfl rfl (.inr rfl) id
    | _ => exact hkeeps rfl rfl rfl rfl (.inl rfl) id
  | _ => exact hkeeps rfl rfl rfl rfl (.inl rfl) id

end Turns

section Runs

theorem Flow.initial : Flow (initial db diffs) where
  main := ⟨rfl, by simp [DiskscanDaemon.initial, MainPhase.puts]⟩
  scan := rfl
  event := rfl
  sources := RowInv.initial.sources
  rtevent hd h := by cases h
  ends m h := by cases h
  handled := List.prefix_rfl
  alive _ := rfl

theorem Turns.initial : Turns (initial db diffs) where
  flow := .initial
  cyclic := rfl
  started := Nat.zero_le _
  complete _ := Nat.zero_le _
  idle := Iff.rfl.trans (iff_of_true rfl rfl)
  ends h := absurd rfl h
  starting _ := rfl

/-- If no scan is started while one runs, the markers are handled in cyclic order, and the flag is
down only when all scans that were started have ended. -/
theorem scans_in_turn (steps : List Step)
    (hturn : StepsMeet (step host cfg singlerun unitTest printTime) (StartsInTurn cfg)
      (initial db diffs) steps)
    (h : run host cfg singlerun unitTest printTime db diffs steps = some s) :
    markersIn s.handled = cycle (markersIn s.handled).length ∧
      (s.scanIsRunning = false → (markersIn s.handled).count .endscan = s.scans) := by
  have hturns : Turns s := hturn.invariant (fun hu => hu.step) Turns.initial h
  refine ⟨hturns.handled_eq, ?_⟩
  intro hidle
  rw [hturns.handled_eq, count_cycle, hturns.idle.mp hidle]
  omega

/-- A scan passes through `scan_task`, `event_task` and `alert_task`, without anything to look
at. -/
def passesScan : List Step :=
  [.scan [], .scan [], .scan [], .scan [], .scan [], .scan [], .event, .event, .event, .event,
    .alert 0, .alert 0, .alert 0, .alert 0, .alert 0, .event, .event, .alert 0, .alert 0]

/-- A daemon that scans nothing, once in every second. -/
def restlessConfig : DiskscanConfig where
  scaninterval := 1
  maxDiffSize := 0
  watches := []

/-- The first scan has ended when the timer starts a second one. -/
def scansTwice : List Step :=
  [.main, .main, .main, .main, .alert 0] ++ passesScan ++ [.timeout, .main, .main, .main] ++
    passesScan

theorem scans_in_turn_passed : ∃ s,
    run rootHost restlessConfig false false toString ∅ ∅ scansTwice = some s ∧
      s.scans = 2 ∧ (markersIn s.handled).length = 6 ∧ s.scanIsRunning = false ∧
      markersIn s.handled = cycle (markersIn s.handled).length ∧
      (markersIn s.handled).count .endscan = s.scans := by
  have hturn : StepsMeet (step rootHost restlessConfig false false toString)
      (StartsInTurn restlessConfig) (initial ∅ ∅) scansTwice := by
    refine stepsMeet_of_checkSteps
      (c := fun s x => match x with | .timeout => !s.scanIsRunning | _ => true) ?_
      (by decide +kernel)
    rintro s x hx rfl - - -
    simpa using hx
  have hview : (run rootHost restlessConfig false false toString ∅ ∅ scansTwice).map
      (fun s => (s.scans, (markersIn s.handled).length, s.scanIsRunning)) = some (2, 6, false) := by
    decide +kernel
  obtain ⟨s, hs, hview⟩ := Option.map_eq_some_iff.mp hview
  simp only [Prod.mk.injEq] at hview
  obtain ⟨hscans, hlength, hidle⟩ := hview
  obtain ⟨hcycle, hcount⟩ := scans_in_turn scansTwice hturn hs
  exact ⟨s, hs, hscans, hlength, hidle, hcycle, hcount hidle⟩

/-- A second scan is started while `scan_task` is still busy with the first. -/
def overlapsScan : List Step :=
  [.main, .main, .main, .main, .main, .timeout, .main, .main, .main, .main,
    .scan [], .scan [], .scan [], .scan [], .scan [], .scan [], .scan [], .scan [], .scan [],
    .scan [], .scan [], .event, .event, .event, .event, .event, .event,
    .alert 0, .alert 0, .alert 0, .alert 0, .alert 0, .alert 0, .alert 0]

theorem scans_overlap : ∃ s,
    run rootHost { watchedConfig with scaninterval := 1 } false false toString ∅ ∅ overlapsScan =
        some s ∧
      markersIn s.handled = [.startscan, .midscan, .startscan] ∧
      markersIn s.handled ≠ cycle (markersIn s.handled).length := by
  refine ⟨_, rfl, rfl, ?_⟩
  intro h
  cases h

end Runs

end Ctguard.DiskscanDaemon
