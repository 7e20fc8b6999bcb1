import Ctguard.ScanMarkers

/-!
# A single run of the disk scanner

The main thread waits for the end of the one scan, and then sends a kill message after it. A task
that fails sends a kill message at once. Each task that takes such a message ends and passes it
on, so what comes behind the first kill message is never forwarded.
-/

namespace Ctguard.DiskscanDaemon

open AlertTask

variable {host : FileHost} {cfg : DiskscanConfig} {unitTest : Bool} {printTime : ℤ → String}
  {s s' : State} {db : Table} {diffs : DiffTable} {steps : List Step}

section Lists

def NoKill (es : List (String × Flags)) : Prop := ∀ e ∈ es, e.2.kill = false

theorem noKill_nil : NoKill [] := by simp [NoKill]

theorem noKill_append {es es' : List (String × Flags)} :
    NoKill (es ++ es') ↔ NoKill es ∧ NoKill es' := by
  simp only [NoKill, List.mem_append, or_imp, forall_and]

@[simp] theorem noKill_singleton {e : String × Flags} : NoKill [e] ↔ e.2.kill = false := by
  simp [NoKill]

/-- What comes before the first kill message. -/
def beforeKill (es : List (String × Flags)) : List (String × Flags) :=
  es.takeWhile fun e => !e.2.kill

theorem beforeKill_isPrefix (es : List (String × Flags)) : beforeKill es <+: es :=
  List.takeWhile_prefix _

theorem beforeKill_append_of_noKill {es : List (String × Flags)} (h : NoKill es)
    (es' : List (String × Flags)) : beforeKill (es ++ es') = es ++ beforeKill es' :=
  List.takeWhile_append_of_pos fun e he => by simp [h e he]

theorem beforeKill_of_noKill {es : List (String × Flags)} (h : NoKill es) : beforeKill es = es := by
  simpa [beforeKill] using beforeKill_append_of_noKill h []

theorem beforeKill_append_of_kill {es : List (String × Flags)} (h : ¬ NoKill es)
    (es' : List (String × Flags)) : beforeKill (es ++ es') = beforeKill es := by
  induction es with
  | nil => exact absurd noKill_nil h
  | cons e es ih =>
    cases hkill : e.2.kill with
    | true => simp [beforeKill, hkill]
    | false =>
      have htail : ¬ NoKill es := by
        intro hes
        apply h
        intro x hx
        rcases List.mem_cons.mp hx with rfl | hx
        · exact hkill
        · exact hes x hx
      simpa [beforeKill, hkill] using ih htail

theorem beforeKill_append_isPrefix (es es' : List (String × Flags)) :
    beforeKill es <+: beforeKill (es ++ es') := by
  by_cases h : NoKill es
  · rw [beforeKill_append_of_noKill h, beforeKill_of_noKill h]
    exact List.prefix_append _ _
  · exact (beforeKill_append_of_kill h es').symm ▸ List.prefix_rfl

theorem markersOf_isPrefix {es es' : List (String × Flags)} (h : es <+: es') :
    markersOf es <+: markersOf es' := h.filterMap _

theorem markersIn_isPrefix {hs hs' : List Handed} (h : hs <+: hs') :
    markersIn hs <+: markersIn hs' := h.filterMap _

end Lists

section Alone

/-- The phases of the main thread in a single run. -/
def MainPhase.Alone (scans : ℕ) : MainPhase → Prop
  | .starting => scans = 0
  | .queueing puts initial => initial = true ∧ scans = 1 ∧ NoKill puts
  | .waitingScan => scans = 1
  | .killingScan => scans = 1
  | .joining ws => scans = 1 ∧ ws ⊆ workers true
  | .waiting => False
  | .stopping => False
  | .killingRtevent => False

/-- In a single run, there are neither watches nor a second scan, and `RUNNING` stays true. -/
structure Alone (s : State) : Prop where
  running : s.running = true
  rteventTask : s.rteventTask = .ended
  watchers : s.watchers = 0
  main : s.main.Alone s.scans

theorem noKill_scanPuts (cfg : DiskscanConfig) : NoKill (scanPuts cfg) := by
  intro e he
  simp only [scanPuts, List.cons_append, List.mem_cons, List.mem_append, List.mem_map,
    List.not_mem_nil, or_false] at he
  rcases he with rfl | ⟨w, -, rfl⟩ | rfl
  all_goals rfl

theorem Alone.step (h : Alone s) {x : Step}
    (hstep : step host cfg true unitTest printTime s x = some s') : Alone s' := by
  obtain ⟨hrunning, hrtevent, hwatchers, hphase⟩ := h
  have hsame : Alone s := ⟨hrunning, hrtevent, hwatchers, hphase⟩
  cases does_of_step hstep with
  | starts hmain =>
    rw [hmain] at hphase
    exact ⟨hrunning, hrtevent, hwatchers, rfl, congrArg (· + 1) hphase, noKill_scanPuts cfg⟩
  | queues hmain =>
    rw [hmain] at hphase
    obtain ⟨hinitial, hscans, hputs⟩ := hphase
    exact ⟨hrunning, hrtevent, hwatchers, hinitial, hscans,
      fun e he => hputs e (List.mem_cons_of_mem _ he)⟩
  | waits hmain hsingle =>
    rw [hmain] at hphase
    exact ⟨hrunning, hrtevent, hwatchers, hphase.2.1⟩
  | watches hmain hsingle => cases hsingle
  | resumes hmain =>
    rw [hmain] at hphase
    cases hphase.1
  | sees hmain hscan =>
    rw [hmain] at hphase
    exact ⟨hrunning, hrtevent, hwatchers, hphase⟩
  | stops errors hx hmain =>
    rw [hmain] at hphase
    exact hphase.elim
  | ticks hmain =>
    rw [hmain] at hphase
    exact hphase.elim
  | rescans hmain herrors htimer =>
    rw [hmain] at hphase
    exact hphase.elim
  | clears hmain =>
    rw [hmain] at hphase
    exact hphase.elim
  | killsScan hmain =>
    rw [hmain] at hphase
    exact ⟨hrunning, hrtevent, hwatchers, hphase, List.Subset.refl _⟩
  | killsRtevent hmain =>
    rw [hmain] at hphase
    exact hphase.elim
  | joins hmain hended =>
    rw [hmain] at hphase
    exact ⟨hrunning, hrtevent, hwatchers, hphase.1, (List.cons_subset.mp hphase.2).2⟩
  | sleeps now hphase => exact hsame
  | seesKill now hphase => simp [hrtevent] at hphase
  | takesRtevent now hphase => simp [hrtevent] at hphase
  | putsRealtime now hphase => simp [hrtevent] at hphase
  | leavesRtevent now hphase => simp [hrtevent] at hphase
  | examinesRealtime hphase => simp [hrtevent] at hphase
  | examinesRealtimeNot hphase => simp [hrtevent] at hphase
  | watchEnds hwatch hstop => simp [hrunning] at hstop
  | @puts p ps ending now hphase' =>
    cases p <;> exact ⟨hrunning, hrtevent, hwatchers, hphase⟩
  | @fails w hawake =>
    cases w with
    | rtevent => simp [State.awake, EventPhase.awake, hrtevent] at hawake
    | watch => simp [State.awake, hwatchers] at hawake
    | _ => exact ⟨hrunning, hrtevent, hwatchers, hphase⟩
  | _ => exact ⟨hrunning, hrtevent, hwatchers, hphase⟩

theorem Alone.initial : Alone (initial db diffs) := ⟨rfl, rfl, rfl, rfl⟩

end Alone

section Handled

theorem mem_handled_step {x : Step} {singlerun : Bool} {m : Marker}
    (hstep : step host cfg singlerun unitTest printTime s x = some s')
    (h : m ∈ markersIn s.handled) : m ∈ markersIn s'.handled := by
  cases does_of_step hstep with
  | handles now hphase hqueue hkill hrunning hresult =>
    exact (markersIn_isPrefix (List.prefix_append _ _)).subset h
  | @puts p ps ending now hphase => cases p <;> exact h
  | @fails w hawake => cases w <;> exact h
  | _ => exact h

/-- The flag is down exactly behind the end of the only scan. -/
theorem Turns.over_iff (h : Turns s) (hscans : s.scans = 1) :
    s.scanIsRunning = false ↔ .endscan ∈ markersIn s.handled := by
  have hle := h.handled_le
  have hput_le := h.put_le
  rw [h.idle, ← List.count_pos_iff, h.handled_eq, count_cycle]
  omega

end Handled

section ScanKills

/-- `scan_task` has not taken a kill message. -/
def ScanPhase.going : ScanPhase → Bool
  | .loop => true
  | .putting _ stop => !stop
  | .leaving => false
  | .ended => false

/-- The main thread sends its kill message behind the end of the scan. `scan_task` ends there, and
passes the message on. -/
structure ScanKills (s : State) : Prop where
  passed : s.main = .killingScan ∨ ¬ NoKill (s.scanTaken ++ s.scanQueue) →
    .endscan ∈ markersIn s.handled
  joining : ∀ ws, s.main = .joining ws → ¬ NoKill (s.scanTaken ++ s.scanQueue)
  going : s.scanTask.going = true → NoKill s.scanTaken
  puts : ∀ ps, s.scanTask = .putting ps false → NoKill ps
  stopping : ∀ ps, s.scanTask = .putting ps true →
    ¬ NoKill s.scanTaken ∧ (ps = [killEvent] ∨ ps = [] ∧ ¬ NoKill s.eventPuts)
  ended : s.scanTask = .ended → ¬ NoKill s.eventPuts

/-- What does not concern `scan_task`. -/
theorem ScanKills.congr (h : ScanKills s)
    (hmain : s'.main = .killingScan ∨ (∃ ws, s'.main = .joining ws) →
      s'.main = s.main ∨ ∃ ws, s.main = .joining ws)
    (hputs : s'.scanTaken ++ s'.scanQueue = s.scanTaken ++ s.scanQueue)
    (htaken : s'.scanTaken = s.scanTaken) (htask : s'.scanTask = s.scanTask)
    (hhandled : .endscan ∈ markersIn s.handled → .endscan ∈ markersIn s'.handled)
    (hevents : ¬ NoKill s.eventPuts → ¬ NoKill s'.eventPuts) : ScanKills s' := by
  have hkilled : ∀ ws, s.main = .joining ws → .endscan ∈ markersIn s.handled :=
    fun ws hws => h.passed (.inr (h.joining ws hws))
  constructor
  · rintro (hkilling | hkill)
    · rcases hmain (.inl hkilling) with heq | ⟨ws, hws⟩
      · exact hhandled (h.passed (.inl (heq ▸ hkilling)))
      · exact hhandled (hkilled ws hws)
    · rw [hputs] at hkill
      exact hhandled (h.passed (.inr hkill))
  · intro ws hws
    rw [hputs]
    rcases hmain (.inr ⟨ws, hws⟩) with heq | ⟨ws', hws'⟩
    · exact h.joining ws (heq ▸ hws)
    · exact h.joining ws' hws'
  · rw [htask, htaken]
    exact h.going
  · rw [htask]
    exact h.puts
  · intro ps hps
    rw [htask] at hps
    rw [htaken]
    obtain ⟨hkill, hps⟩ := h.stopping ps hps
    exact ⟨hkill, hps.imp_right (And.imp_right hevents)⟩
  · rw [htask]
    exact fun hended => hevents (h.ended hended)

theorem not_noKill_append {es : List (String × Flags)} (h : ¬ NoKill es)
    (es' : List (String × Flags)) : ¬ NoKill (es ++ es') :=
  fun hes => h (noKill_append.mp hes).1

theorem not_noKill_put {es es' : List (String × Flags)} :
    ¬ NoKill (es ++ (es' ++ [killEvent])) := by
  rw [noKill_append, noKill_append, noKill_singleton]
  rintro ⟨-, -, hkill⟩
  cases hkill

theorem noKill_scanEvents {e : String × Flags} (hkill : e.2.kill = false) (found : List String) :
    NoKill (scanEvents e found) := by
  rw [scanEvents]
  split
  · split
    · exact noKill_singleton.mpr hkill
    · exact noKill_nil
  · intro x hx
    obtain ⟨name, -, rfl⟩ := List.mem_map.mp hx
    rfl

theorem eventPuts_mono {x : Step} {singlerun : Bool}
    (hstep : step host cfg singlerun unitTest printTime s x = some s') :
    s.eventPuts <+: s'.eventPuts := by
  have hput : ∀ e : String × Flags, s.eventPuts <+: s.eventTaken ++ (s.eventQueue ++ [e]) := by
    intro e
    rw [s.eventPuts_put]
    exact List.prefix_append _ _
  have htake : ∀ {e : String × Flags} {rest : List (String × Flags)}, s.eventQueue = e :: rest →
      s.eventPuts <+: s.eventTaken ++ [e] ++ rest := by
    intro e rest hqueue
    exact ⟨[], by rw [List.append_nil, State.eventPuts_take hqueue]⟩
  cases does_of_step hstep with
  | putsScan found hphase => exact hput _
  | leavesScan found hphase => exact hput _
  | takesEvent hphase hqueue hspecial hrunning => exact htake hqueue
  | takesSpecial stop hphase hqueue hspecial hstop => exact htake hqueue
  | @puts p ps ending now hphase =>
    cases p with
    | event e => exact hput e
    | alert a => exact List.prefix_rfl
    | kill => exact List.prefix_rfl
  | @fails w hawake => cases w <;> exact List.prefix_rfl
  | _ => exact List.prefix_rfl

theorem ScanKills.step (h : ScanKills s) (halone : Alone s) (hturns : Turns s) {x : Step}
    (hstep : step host cfg true unitTest printTime s x = some s') : ScanKills s' := by
  have hhandled : .endscan ∈ markersIn s.handled → .endscan ∈ markersIn s'.handled :=
    mem_handled_step hstep
  have hevents : ¬ NoKill s.eventPuts → ¬ NoKill s'.eventPuts := by
    obtain ⟨es, hes⟩ := eventPuts_mono hstep
    rw [← hes]
    exact fun hkill => not_noKill_append hkill es
  have hkeeps : s'.main = s.main → s'.scanTaken = s.scanTaken → s'.scanQueue = s.scanQueue →
      s'.scanTask = s.scanTask → ScanKills s' := by
    intro hmain htaken hqueue htask
    exact h.congr (fun _ => .inl hmain) (by rw [htaken, hqueue]) htaken htask hhandled hevents
  -- `scan_task` moves, but takes nothing
  have hmoves : s'.main = s.main → s'.scanTaken = s.scanTaken → s'.scanQueue = s.scanQueue →
      (s'.scanTask.going = true → s.scanTask.going = true) →
      (∀ ps, s'.scanTask = .putting ps false → NoKill ps) →
      (∀ ps, s'.scanTask = .putting ps true →
        ¬ NoKill s'.scanTaken ∧ (ps = [killEvent] ∨ ps = [] ∧ ¬ NoKill s'.eventPuts)) →
      (s'.scanTask = .ended → ¬ NoKill s'.eventPuts) → ScanKills s' := by
    intro hmain htaken hqueue hgoing hputs hstopping hended
    refine ⟨?_, ?_, fun hs' => htaken ▸ h.going (hgoing hs'), hputs, hstopping, hended⟩
    · rw [hmain, htaken, hqueue]
      exact fun hpassed => hhandled (h.passed hpassed)
    · rw [hmain, htaken, hqueue]
      exact h.joining
  cases does_of_step hstep with
  | starts hmain => exact h.congr (by rintro (h | ⟨ws, h⟩) <;> cases h) rfl rfl rfl hhandled hevents
  | @queues e es initial hmain =>
    have hphase := halone.main
    rw [hmain] at hphase
    have hkill : e.2.kill = false := hphase.2.2 e List.mem_cons_self
    refine ⟨?_, fun ws hws => (by cases hws), h.going, h.puts, h.stopping, h.ended⟩
    rintro (hkilling | hkills)
    · cases hkilling
    · apply h.passed
      refine .inr fun hnone => hkills ?_
      rw [← List.append_assoc, noKill_append, noKill_singleton]
      exact ⟨hnone, hkill⟩
  | waits hmain hsingle =>
    exact h.congr (by rintro (h | ⟨ws, h⟩) <;> cases h) rfl rfl rfl hhandled hevents
  | watches hmain hsingle => cases hsingle
  | resumes hmain =>
    exact h.congr (by rintro (h | ⟨ws, h⟩) <;> cases h) rfl rfl rfl hhandled hevents
  | sees hmain hscan =>
    have hphase := halone.main
    rw [hmain] at hphase
    have hover := (hturns.over_iff hphase).mp hscan
    exact ⟨fun _ => hover, fun ws hws => (by cases hws), h.going, h.puts, h.stopping, h.ended⟩
  | stops errors hx hmain =>
    exact h.congr (by rintro (h | ⟨ws, h⟩) <;> cases h) rfl rfl rfl hhandled hevents
  | rescans hmain herrors htimer =>
    exact h.congr (by rintro (h | ⟨ws, h⟩) <;> cases h) rfl rfl rfl hhandled hevents
  | clears hmain =>
    have hphase := halone.main
    rw [hmain] at hphase
    exact hphase.elim
  | killsScan hmain =>
    exact ⟨fun _ => h.passed (.inl hmain), fun _ _ => not_noKill_put, h.going, h.puts, h.stopping,
      h.ended⟩
  | killsRtevent hmain =>
    have hphase := halone.main
    rw [hmain] at hphase
    exact hphase.elim
  | joins hmain hended => exact h.congr (fun _ => .inr ⟨_, hmain⟩) rfl rfl rfl hhandled hevents
  | @lists e rest found hphase hqueue hkill hrunning =>
    have hsame : s.scanTaken ++ [e] ++ rest = s.scanTaken ++ s.scanQueue := by simp [hqueue]
    refine ⟨?_, ?_, ?_, ?_, by simp, by simp⟩
    · change _ ∨ ¬ NoKill (s.scanTaken ++ [e] ++ rest) → _
      rw [hsame]
      exact h.passed
    · change ∀ ws, _ → ¬ NoKill (s.scanTaken ++ [e] ++ rest)
      rw [hsame]
      exact h.joining
    · intro _
      exact noKill_append.mpr ⟨h.going (by rw [hphase]; rfl), noKill_singleton.mpr hkill⟩
    · rintro ps ⟨⟩
      exact noKill_scanEvents hkill found
  | @takesScanKill e rest found hphase hqueue hkill =>
    have hsame : s.scanTaken ++ [e] ++ rest = s.scanTaken ++ s.scanQueue := by simp [hqueue]
    have hkilled : e.2.kill = true := hkill.resolve_right (by simp [halone.running])
    refine ⟨?_, ?_, fun hs' => (by cases hs'), by simp, ?_, by simp⟩
    · change _ ∨ ¬ NoKill (s.scanTaken ++ [e] ++ rest) → _
      rw [hsame]
      exact h.passed
    · change ∀ ws, _ → ¬ NoKill (s.scanTaken ++ [e] ++ rest)
      rw [hsame]
      exact h.joining
    · rintro ps ⟨⟩
      refine ⟨?_, .inl rfl⟩
      rw [noKill_append, noKill_singleton, hkilled]
      simp
  | @putsScan e es stop found hphase =>
    cases stop with
    | false =>
      refine hmoves rfl rfl rfl (fun _ => by rw [hphase]; rfl) ?_ (by simp) (by simp)
      rintro ps ⟨⟩
      exact fun x hx => h.puts _ hphase x (List.mem_cons_of_mem _ hx)
    | true =>
      refine hmoves rfl rfl rfl (fun hs' => by cases hs') (by simp) ?_ (by simp)
      rintro ps ⟨⟩
      obtain ⟨hkilled, hps⟩ := h.stopping _ hphase
      refine ⟨hkilled, .inr ?_⟩
      rcases hps with heq | ⟨heq, -⟩
      · obtain ⟨rfl, rfl⟩ := List.cons.inj heq
        exact ⟨rfl, not_noKill_put⟩
      · cases heq
  | @nextScan stop found hphase =>
    cases stop with
    | false => exact hmoves rfl rfl rfl (fun _ => by rw [hphase]; rfl) (by simp) (by simp) (by simp)
    | true =>
      obtain ⟨-, hps⟩ := h.stopping _ hphase
      have hkill : ¬ NoKill s.eventPuts := by simpa using hps
      exact hmoves rfl rfl rfl (fun hs' => by cases hs') (by simp) (by simp) (fun _ => hkill)
  | leavesScan found hphase =>
    exact hmoves rfl rfl rfl (fun hs' => by cases hs') (by simp) (by simp) (fun _ => not_noKill_put)
  | creates hwatch => simp [halone.watchers] at hwatch
  | @puts p ps ending now hphase => cases p <;> exact hkeeps rfl rfl rfl rfl
  | @fails w hawake =>
    cases w with
    | scan =>
      exact hmoves rfl rfl rfl (fun hs' => by cases hs') (by simp [State.catchAll])
        (by simp [State.catchAll]) (by simp [State.catchAll])
    | _ => exact hkeeps rfl rfl rfl rfl
  | _ => exact hkeeps rfl rfl rfl rfl

end ScanKills

section EventKills

def EventPhase.going : EventPhase → Bool
  | .loop => true
  | .examining _ _ => true
  | .putting _ stop => !stop
  | .leaving => false
  | .ended => false

/-- `event_task` passes on what comes before the first kill message, and ends with one. -/
structure EventKills (s : State) : Prop where
  marks : ∀ e ∈ s.eventPuts, e.2.kill = true → e.2.marker = none
  going : s.eventTask.going = true → NoKill s.eventTaken
  held : ∀ h stop, s.eventTask = .putting h stop → h.message.flags.kill = stop
  stopping : ∀ h, s.eventTask = .putting h true →
    h.message.flags.marker = none ∧ ¬ NoKill s.eventTaken
  arrivals : s.eventTask ≠ .ended → ∀ h ∈ s.arrivals, h.message.flags.kill = false
  ended : s.eventTask = .ended → ∃ pre h, s.arrivals = pre ++ [h] ∧
    h.message.flags.kill = true ∧ h.message.flags.marker = none ∧
      ∀ h ∈ pre, h.message.flags.kill = false
  forwarded : markersIn s.arrivals <+: markersOf (beforeKill s.eventPuts)

/-- The events that `alert_task` is about to put are no kill messages. -/
def AlertPhase.PutsNoKill (phase : AlertPhase) : Prop :=
  ∀ ps ending e, phase = .putting ps ending → .event e ∈ ps → e.2.kill = false

theorem EventKills.marks_step (h : EventKills s) (hscan : ScanKills s)
    (hevents : s.alertTask.PutsNoKill) {x : Step}
    (hstep : step host cfg true unitTest printTime s x = some s') :
    ∀ e ∈ s'.eventPuts, e.2.kill = true → e.2.marker = none := by
  have hput : ∀ e : String × Flags, (e.2.kill = true → e.2.marker = none) →
      ∀ y ∈ s.eventTaken ++ (s.eventQueue ++ [e]), y.2.kill = true → y.2.marker = none := by
    intro e he y hy
    rw [← List.append_assoc, List.mem_append, List.mem_singleton] at hy
    rcases hy with hy | rfl
    · exact h.marks y hy
    · exact he
  cases does_of_step hstep with
  | @putsScan e es stop found hphase =>
    apply hput
    intro hkill
    cases stop with
    | false => simp [hscan.puts _ hphase e List.mem_cons_self] at hkill
    | true =>
      rcases (hscan.stopping _ hphase).2 with heq | ⟨heq, -⟩
      · obtain ⟨rfl, -⟩ := List.cons.inj heq
        rfl
      · cases heq
  | leavesScan found hphase => exact hput _ fun _ => rfl
  | takesEvent hphase hqueue hspecial hrunning =>
    change ∀ e ∈ s.eventTaken ++ [_] ++ _, _
    rw [State.eventPuts_take hqueue]
    exact h.marks
  | takesSpecial stop hphase hqueue hspecial hstop =>
    change ∀ e ∈ s.eventTaken ++ [_] ++ _, _
    rw [State.eventPuts_take hqueue]
    exact h.marks
  | @puts p ps ending now hphase =>
    cases p with
    | event e =>
      apply hput
      intro hkill
      simp [hevents _ _ e hphase List.mem_cons_self] at hkill
    | alert a => exact h.marks
    | kill => exact h.marks
  | @fails w hawake => cases w <;> exact h.marks
  | _ => exact h.marks

theorem EventKills.step (h : EventKills s) (hflow : Flow s) (halone : Alone s)
    (hscan : ScanKills s) (hevents : s.alertTask.PutsNoKill) {x : Step}
    (hstep : step host cfg true unitTest printTime s x = some s') : EventKills s' := by
  have hmarks := h.marks_step hscan hevents hstep
  have hmono : markersOf (beforeKill s.eventPuts) <+: markersOf (beforeKill s'.eventPuts) := by
    obtain ⟨es, hes⟩ := eventPuts_mono hstep
    rw [← hes]
    exact markersOf_isPrefix (beforeKill_append_isPrefix _ es)
  -- nothing arrives
  have hkeeps : s'.arrivals = s.arrivals → s'.eventTaken = s.eventTaken →
      (s'.eventTask = s.eventTask ∨ s.eventTask ≠ .ended ∧ s'.eventTask = .leaving) →
      EventKills s' := by
    intro harrivals htaken htask
    refine ⟨hmarks, ?_, ?_, ?_, ?_, ?_, harrivals ▸ h.forwarded.trans hmono⟩
    · rcases htask with heq | ⟨-, heq⟩
      · rw [heq, htaken]
        exact h.going
      · rw [heq]
        exact fun hgoing => by cases hgoing
    · rcases htask with heq | ⟨-, heq⟩
      · rw [heq]
        exact h.held
      · simp [heq]
    · rcases htask with heq | ⟨-, heq⟩
      · rw [heq, htaken]
        exact h.stopping
      · simp [heq]
    · rw [harrivals]
      rcases htask with heq | ⟨hne, -⟩
      · rw [heq]
        exact h.arrivals
      · exact fun _ => h.arrivals hne
    · rw [harrivals]
      rcases htask with heq | ⟨-, heq⟩
      · rw [heq]
        exact h.ended
      · simp [heq]
  have hrtevent := halone.rteventTask
  cases does_of_step hstep with
  | @takesEvent e rest hphase hqueue hspecial hrunning =>
    have hkill : e.2.kill = false := by
      simp only [Flags.special, Bool.or_eq_false_iff] at hspecial
      exact hspecial.1.1.1
    have htaken : NoKill (s.eventTaken ++ [e]) :=
      noKill_append.mpr ⟨h.going (by rw [hphase]; rfl), noKill_singleton.mpr hkill⟩
    exact ⟨hmarks, fun _ => htaken, by simp, by simp, fun _ => h.arrivals (by simp [hphase]),
      by simp, h.forwarded.trans hmono⟩
  | @takesSpecial e rest stop hphase hqueue hspecial hstop =>
    have hkill : e.2.kill = stop := by
      rw [Bool.eq_iff_iff, hstop]
      simp [halone.running]
    refine ⟨hmarks, ?_, ?_, ?_, fun _ => h.arrivals (by simp [hphase]), by simp,
      h.forwarded.trans hmono⟩
    · intro hgoing
      have hfalse : stop = false := by simpa [EventPhase.going] using hgoing
      exact noKill_append.mpr ⟨h.going (by rw [hphase]; rfl),
        noKill_singleton.mpr (hkill.trans hfalse)⟩
    · rintro hd stop' ⟨⟩
      exact hkill
    · rintro hd ⟨⟩
      refine ⟨h.marks e (by simp [State.eventPuts, hqueue]) hkill, ?_⟩
      rw [noKill_append, noKill_singleton, hkill]
      simp
  | @putsHanded hd stop hphase =>
    have hkill := h.held hd stop hphase
    have hnone := h.arrivals (by simp [hphase])
    have hevent := hflow.event
    rw [hphase] at hevent
    cases stop with
    | false =>
      have htaken : NoKill s.eventTaken := h.going (by rw [hphase]; rfl)
      refine ⟨hmarks, fun _ => htaken, by simp, by simp, ?_, by simp, ?_⟩
      · intro _ y hy
        rw [State.arrivals, s.arrivals_put, List.mem_append, List.mem_singleton] at hy
        rcases hy with hy | rfl
        · exact hnone y hy
        · exact hkill
      · rw [State.arrivals, s.arrivals_put, markersIn_append,
          show markersIn s.arrivals ++ markersIn [hd] = markersOf s.eventTaken from hevent]
        refine .trans ?_ hmono
        rw [State.eventPuts, beforeKill_append_of_noKill htaken, markersOf_append]
        exact List.prefix_append _ _
    | true =>
      obtain ⟨hmarker, -⟩ := h.stopping hd hphase
      refine ⟨hmarks, fun hgoing => (by cases hgoing), by simp, by simp, by simp, ?_, ?_⟩
      · exact fun _ => ⟨s.arrivals, hd, s.arrivals_put hd, hkill, hmarker, hnone⟩
      · rw [State.arrivals, s.arrivals_put, markersIn_append, markersIn_singleton, hmarker]
        simpa using h.forwarded.trans hmono
  | leavesEvent hphase =>
    refine ⟨hmarks, fun hgoing => (by cases hgoing), by simp, by simp, by simp, ?_, ?_⟩
    · exact fun _ =>
        ⟨s.arrivals, killHanded, s.arrivals_put _, rfl, rfl, h.arrivals (by simp [hphase])⟩
    · rw [State.arrivals, s.arrivals_put, markersIn_append]
      simpa [killHanded, Flags.marker] using h.forwarded.trans hmono
  | examines hphase hresult =>
    have hplain := hflow.sources.event _ _ hphase
    simp only [Flags.special, Bool.or_eq_false_iff] at hplain
    refine ⟨hmarks, fun _ => h.going (by rw [hphase]; rfl), ?_, by simp,
      fun _ => h.arrivals (by simp [hphase]), by simp, h.forwarded.trans hmono⟩
    rintro hd stop ⟨⟩
    exact hplain.1.1.1
  | examinesNot hphase hresult => exact hkeeps rfl rfl (.inr ⟨by simp [hphase], rfl⟩)
  | putsRealtime now hphase => simp [hrtevent] at hphase
  | leavesRtevent now hphase => simp [hrtevent] at hphase
  | takesKill now hphase hqueue hkill =>
    refine hkeeps ?_ rfl (.inl rfl)
    simp [State.arrivals, hqueue]
  | handles now hphase hqueue hkill hrunning hresult =>
    refine hkeeps ?_ rfl (.inl rfl)
    simp [State.arrivals, hqueue]
  | @puts p ps ending now hphase => cases p <;> exact hkeeps rfl rfl (.inl rfl)
  | @fails w hawake =>
    cases w with
    | event =>
      refine hkeeps rfl rfl (.inr ⟨?_, rfl⟩)
      intro hended
      simp [State.awake, EventPhase.awake, hended] at hawake
    | _ => exact hkeeps rfl rfl (.inl rfl)
  | _ => exact hkeeps rfl rfl (.inl rfl)

end EventKills

/-- Behind a kill message nothing arrives. -/
theorem EventKills.last (h : EventKills s) {pre post : List Handed} {hd : Handed}
    (hmem : hd ∈ s.arrivals) (hkill : hd.message.flags.kill = true)
    (harrivals : s.arrivals = pre ++ [hd] ++ post) :
    s.eventTask = .ended ∧ post = [] ∧ hd.message.flags.marker = none := by
  have hended : s.eventTask = .ended := by
    by_contra hne
    simp [h.arrivals hne hd hmem] at hkill
  obtain ⟨before, last, heq, -, hmarker, hbefore⟩ := h.ended hended
  rw [harrivals] at heq
  rcases List.eq_nil_or_concat post with rfl | ⟨post', y, rfl⟩
  · rw [List.append_nil] at heq
    obtain ⟨-, hsame⟩ := List.append_inj' heq rfl
    obtain rfl := (List.cons.inj hsame).1
    exact ⟨hended, rfl, hmarker⟩
  · rw [List.concat_eq_append, ← List.append_assoc] at heq
    obtain ⟨hsame, -⟩ := List.append_inj' heq rfl
    have hcontra := hbefore hd (by simp [← hsame])
    simp [hcontra] at hkill

section AlertKills

/-- `output_task` has stopped reading, or the kill message waits for it. -/
def State.Told (s : State) : Prop :=
  s.outputTask.phase.reads = false ∨ OutputTask.KillWaits OutputTask.diskscan s.outputTask.queue

/-- `alert_task` asks for the end of a scan whose first phase has ended, and tells `output_task`
when it ends. -/
structure AlertKills (s : State) : Prop where
  events : s.alertTask.PutsNoKill
  going : s.alertTask.alive = true → ∀ h ∈ s.dataTaken, h.message.flags.kill = false
  returns : ∀ ps, s.alertTask = .putting ps .returns → s.eventTask = .ended ∧
    markersIn s.handled = markersIn s.arrivals ∧ (ps = [.kill] ∨ ps = [] ∧ s.Told)
  ended : s.alertTask = .ended → s.Told
  asked : s.alertTask.alive = true → .midscan ∈ markersIn s.handled →
    .endscan ∈ markersOf s.eventPuts ∨ .endscan ∈ s.alertTask.markers
  busy : s.outputTask.Busy

theorem killWaits_put {queue : List (ℕ × SourceEvent)} {n : ℕ} {m : SourceEvent} :
    OutputTask.KillWaits OutputTask.diskscan (queue ++ [(n, m)]) ↔
      OutputTask.KillWaits OutputTask.diskscan queue ∨ OutputTask.diskscan.isKill m = true := by
  simp only [OutputTask.KillWaits, List.mem_append, List.mem_singleton, or_and_right, exists_or,
    exists_eq_left]

theorem told_putOutput (h : s.Told) (m : SourceEvent) : (s.putOutput m).Told :=
  h.imp id fun hwaits => killWaits_put.mpr (.inl hwaits)

theorem told_putKill (s : State) : (s.putOutput killMessage).Told :=
  .inr (killWaits_put.mpr (.inr rfl))

theorem told_step {x : Step} {singlerun : Bool} (h : s.Told)
    (hstep : step host cfg singlerun unitTest printTime s x = some s') : s'.Told := by
  cases does_of_step hstep with
  | leavesAlert now hphase => exact told_putOutput h _
  | @puts p ps ending now hphase =>
    cases p with
    | event e => exact h
    | alert a => exact told_putOutput h _
    | kill => exact told_putOutput h _
  | @sends x task hx hstep' =>
    rcases OutputTask.reads_step hx hstep' with ⟨hreads, hwaits⟩ | ⟨hreads, -⟩
    · exact h.imp hreads.trans hwaits.mpr
    · exact .inl hreads
  | @fails w hawake =>
    cases w with
    | output => exact .inl rfl
    | _ => exact h
  | _ => exact h

theorem busy_outputStep {x : Step} {singlerun : Bool} (h : s.outputTask.Busy)
    (hstep : step host cfg singlerun unitTest printTime s x = some s') : s'.outputTask.Busy := by
  cases does_of_step hstep with
  | @puts p ps ending now hphase => cases p <;> exact h
  | sends hx hstep' => exact OutputTask.busy_step h hstep'
  | @fails w hawake =>
    cases w with
    | output =>
      intro hphase
      simp [State.catchAll] at hphase
    | _ => exact h
  | _ => exact h

theorem noKill_phaseTwoEvents (db : Table) : NoKill (phaseTwoEvents db) := by
  rw [phaseTwoEvents, noKill_append]
  refine ⟨?_, by simp⟩
  intro e he
  obtain ⟨name, -, rfl⟩ := List.mem_map.mp he
  rfl

theorem mem_markers_putting {p : Put} {ps : List Put} {ending : Ending} {m : Marker} :
    m ∈ (AlertPhase.putting (p :: ps) ending).markers ↔
      p.marker = some m ∨ m ∈ (AlertPhase.putting ps ending).markers := by
  simp only [markers_putting, List.mem_filterMap, List.mem_cons, or_and_right, exists_or,
    exists_eq_left]

/-- What does not concern `alert_task`. -/
theorem AlertKills.congr (h : AlertKills s) {x : Step}
    (hstep : step host cfg true unitTest printTime s x = some s')
    (htask : s'.alertTask = s.alertTask) (htaken : s'.dataTaken = s.dataTaken)
    (hhandled : s'.handled = s.handled) (hevent : s.eventTask = .ended → s'.eventTask = .ended)
    (harrivals : s.eventTask = .ended → s'.arrivals = s.arrivals) : AlertKills s' := by
  constructor
  · rw [htask]
    exact h.events
  · rw [htask, htaken]
    exact h.going
  · intro ps hps
    rw [htask] at hps
    obtain ⟨hended, hsame, hputs⟩ := h.returns ps hps
    rw [hhandled, harrivals hended]
    exact ⟨hevent hended, hsame, hputs.imp_right (And.imp_right fun htold => told_step htold hstep)⟩
  · rw [htask]
    exact fun hended => told_step (h.ended hended) hstep
  · rw [htask, hhandled]
    intro halive hmid
    refine (h.asked halive hmid).imp_left ?_
    intro hend
    exact (markersOf_isPrefix (eventPuts_mono hstep)).subset hend
  · exact busy_outputStep h.busy hstep

theorem AlertKills.step (h : AlertKills s) (hflow : Flow s) (halone : Alone s)
    (hevent : EventKills s) {x : Step}
    (hstep : step host cfg true unitTest printTime s x = some s') : AlertKills s' := by
  have hbusy := busy_outputStep h.busy hstep
  have hrtevent := halone.rteventTask
  -- `alert_task` moves, but takes nothing
  have hmoves : s'.dataTaken = s.dataTaken → s'.handled = s.handled →
      s'.eventPuts = s.eventPuts → s'.alertTask.PutsNoKill →
      (s'.alertTask.alive = true → s.alertTask.alive = true ∧ s.alertTask.markers = []) →
      (∀ ps, s'.alertTask ≠ .putting ps .returns) → (s'.alertTask = .ended → s'.Told) →
      AlertKills s' := by
    intro htaken hhandled hputs hevents halive hreturns hended
    refine ⟨hevents, ?_, fun ps hps => absurd hps (hreturns ps), hended, ?_, hbusy⟩
    · rw [htaken]
      exact fun hs' => h.going (halive hs').1
    · rw [hhandled, hputs]
      intro hs' hmid
      obtain ⟨hbefore, hnil⟩ := halive hs'
      have hasked := h.asked hbefore hmid
      rw [hnil] at hasked
      exact hasked.imp_right fun hmem => absurd hmem (List.not_mem_nil)
  cases does_of_step hstep with
  | opens now hphase =>
    exact hmoves rfl rfl rfl (by simp [AlertPhase.PutsNoKill])
      (fun _ => by rw [hphase]; exact ⟨rfl, rfl⟩) (by simp) (by simp)
  | @takesKill hd rest now hphase hqueue hkill =>
    have hkilled : hd.message.flags.kill = true := hkill.resolve_right (by simp [halone.running])
    have harrivals : s.arrivals = s.dataTaken ++ [hd] ++ rest := (State.arrivals_take hqueue).symm
    obtain ⟨hended, hlast, hmarker⟩ := hevent.last (by simp [harrivals]) hkilled harrivals
    refine ⟨?_, fun hs' => (by cases hs'), ?_, by simp, fun hs' => (by cases hs'), hbusy⟩
    · intro ps ending e heq he
      obtain ⟨rfl, -⟩ := AlertPhase.putting.inj heq
      simp at he
    rintro ps ⟨⟩
    refine ⟨hended, ?_, .inl rfl⟩
    change markersIn s.handled = markersIn (s.dataTaken ++ [hd] ++ rest)
    rw [hflow.alive (by rw [hphase]; rfl), hlast, List.append_nil, markersIn_append,
      markersIn_singleton, hmarker]
    exact (List.append_nil _).symm
  | @handles hd rest t ending now hphase hqueue hkill hrunning hresult =>
    have halive : s.alertTask.alive = true := by rw [hphase]; rfl
    obtain ⟨hevents, -⟩ := events_of_result hkill hresult
    have hputs : NoKill t.events := by
      rw [hevents]
      split
      · exact noKill_phaseTwoEvents _
      · exact noKill_nil
    refine ⟨?_, ?_, ?_, by simp, ?_, hbusy⟩
    · rintro ps ending' e ⟨⟩ he
      rcases List.mem_append.mp he with he | he
      · obtain ⟨e', he', heq⟩ := List.mem_map.mp he
        cases heq
        exact hputs e he'
      · obtain ⟨a, -, heq⟩ := List.mem_map.mp he
        cases heq
    · intro _ y hy
      rcases List.mem_append.mp hy with hy | hy
      · exact h.going halive y hy
      · rw [List.mem_singleton.mp hy]
        exact hkill
    · rintro ps ⟨⟩
      rcases hresult with ⟨hending, -⟩ | ⟨hending, -⟩
      · cases hending
      · cases hending
    · intro _ hmid
      rw [markersIn_append, List.mem_append, markersIn_singleton, Option.mem_toList] at hmid
      rcases hmid with hmid | hmid
      · refine .inl ((h.asked halive hmid).resolve_right ?_)
        rw [hphase]
        exact List.not_mem_nil
      · right
        rw [markers_putting, markers_tablePuts, hevents, if_pos hmid, markersOf_phaseTwoEvents]
        exact List.mem_singleton_self _
  | @puts p ps ending now hphase =>
    have htask : ∀ {u : State}, u.dataTaken = s.dataTaken → u.handled = s.handled →
        u.eventTask = s.eventTask → u.arrivals = s.arrivals →
        (p = .kill → u.Told) →
        (p.marker = some .endscan → .endscan ∈ markersOf u.eventPuts) →
        (.endscan ∈ markersOf s.eventPuts → .endscan ∈ markersOf u.eventPuts) →
        u.outputTask.Busy → u.alertTask = .putting ps ending → AlertKills u := by
      intro u htaken hhandled hsame harrivals hkill hput hputs hbusy' hphase'
      have halive : u.alertTask.alive = s.alertTask.alive := by rw [hphase', hphase]; rfl
      refine ⟨?_, ?_, ?_, by simp [hphase'], ?_, hbusy'⟩
      · intro ps' ending' e heq he
        obtain ⟨rfl, rfl⟩ := AlertPhase.putting.inj (hphase'.symm.trans heq)
        exact h.events _ _ e hphase (List.mem_cons_of_mem _ he)
      · rw [halive, htaken]
        exact h.going
      · intro ps' heq
        obtain ⟨rfl, rfl⟩ := AlertPhase.putting.inj (hphase'.symm.trans heq)
        obtain ⟨hended, hmarkers, hps⟩ := h.returns _ hphase
        rw [hsame, hhandled, harrivals]
        refine ⟨hended, hmarkers, .inr ?_⟩
        rcases hps with heq | ⟨heq, -⟩
        · obtain ⟨hp, hnil⟩ := List.cons.inj heq
          exact ⟨hnil, hkill hp⟩
        · cases heq
      · rw [halive, hhandled]
        intro hs' hmid
        rcases h.asked hs' hmid with hend | hend
        · exact .inl (hputs hend)
        · rw [hphase, mem_markers_putting] at hend
          rw [hphase']
          exact hend.imp_left hput
    cases p with
    | event e =>
      have hput : markersOf (s.eventTaken ++ (s.eventQueue ++ [e])) =
          markersOf s.eventPuts ++ e.2.marker.toList := by
        rw [← List.append_assoc, markersOf_append, markersOf_cons, markersOf_nil, List.append_nil]
        rfl
      refine htask rfl rfl rfl rfl (by simp) ?_ ?_ hbusy rfl
      · intro hmarker
        change _ ∈ markersOf (s.eventTaken ++ (s.eventQueue ++ [e]))
        rw [hput, show e.2.marker = some .endscan from hmarker]
        exact List.mem_append_right _ (List.mem_singleton_self _)
      · intro hend
        change _ ∈ markersOf (s.eventTaken ++ (s.eventQueue ++ [e]))
        rw [hput]
        exact List.mem_append_left _ hend
    | alert a => exact htask rfl rfl rfl rfl (by simp) (fun hs' => by cases hs') id hbusy rfl
    | kill =>
      exact htask rfl rfl rfl rfl (fun _ => told_putKill s) (fun hs' => by cases hs') id hbusy rfl
  | goesOn now hphase =>
    exact hmoves rfl rfl rfl (by simp [AlertPhase.PutsNoKill])
      (fun _ => by rw [hphase]; exact ⟨rfl, rfl⟩) (by simp) (by simp)
  | returns now hphase =>
    have htold : s.Told := by simpa using (h.returns _ hphase).2.2
    exact hmoves rfl rfl rfl (by simp [AlertPhase.PutsNoKill]) (fun hs' => by cases hs') (by simp)
      (fun _ => htold)
  | throws now hphase =>
    exact hmoves rfl rfl rfl (by simp [AlertPhase.PutsNoKill, State.catchAll])
      (fun hs' => by cases hs') (by simp [State.catchAll]) (by simp [State.catchAll])
  | leavesAlert now hphase =>
    exact hmoves rfl rfl rfl (by simp [AlertPhase.PutsNoKill]) (fun hs' => by cases hs') (by simp)
      (fun _ => told_putKill s)
  | putsHanded hphase => exact h.congr hstep rfl rfl rfl (by simp [hphase]) (by simp [hphase])
  | leavesEvent hphase => exact h.congr hstep rfl rfl rfl (by simp [hphase]) (by simp [hphase])
  | takesEvent hphase => exact h.congr hstep rfl rfl rfl (by simp [hphase]) (by simp [hphase])
  | takesSpecial stop hphase =>
    exact h.congr hstep rfl rfl rfl (by simp [hphase]) (by simp [hphase])
  | examines hphase => exact h.congr hstep rfl rfl rfl (by simp [hphase]) (by simp [hphase])
  | examinesNot hphase => exact h.congr hstep rfl rfl rfl (by simp [hphase]) (by simp [hphase])
  | putsRealtime now hphase => simp [hrtevent] at hphase
  | leavesRtevent now hphase => simp [hrtevent] at hphase
  | @fails w hawake =>
    cases w with
    | alert =>
      exact hmoves rfl rfl rfl (by simp [AlertPhase.PutsNoKill, State.catchAll])
        (fun hs' => by cases hs') (by simp [State.catchAll]) (by simp [State.catchAll])
    | event =>
      have hne : s.eventTask ≠ .ended := by
        intro hended
        simp [State.awake, EventPhase.awake, hended] at hawake
      exact h.congr hstep rfl rfl rfl (fun hended => absurd hended hne)
        (fun hended => absurd hended hne)
    | _ => exact h.congr hstep rfl rfl rfl id (fun _ => rfl)
  | _ => exact h.congr hstep rfl rfl rfl id (fun _ => rfl)

end AlertKills

/-- All that is known of a single run. -/
structure SingleInv (s : State) : Prop where
  alone : Alone s
  turns : Turns s
  scan : ScanKills s
  event : EventKills s
  alert : AlertKills s

theorem SingleInv.step (h : SingleInv s) {x : Step}
    (hstep : step host cfg true unitTest printTime s x = some s') : SingleInv s' := by
  have hturn : StartsInTurn cfg s x := by
    intro _ hmain
    have hphase := h.alone.main
    rw [hmain] at hphase
    exact hphase.elim
  exact ⟨h.alone.step hstep, h.turns.step hturn hstep, h.scan.step h.alone h.turns hstep,
    h.event.step h.turns.flow h.alone h.scan h.alert.events hstep,
    h.alert.step h.turns.flow h.alone h.event hstep⟩

theorem SingleInv.initial : SingleInv (initial db diffs) where
  alone := .initial
  turns := .initial
  scan := by
    constructor
    · rintro (h | h)
      · cases h
      · exact absurd noKill_nil h
    · intro ws h
      cases h
    · exact fun _ => noKill_nil
    · intro ps h
      cases h
    · intro ps h
      cases h
    · intro h
      cases h
  event := by
    constructor
    · intro e he
      cases he
    · exact fun _ => noKill_nil
    · intro h stop heq
      cases heq
    · intro h heq
      cases heq
    · intro _ h hmem
      cases hmem
    · intro h
      cases h
    · exact List.prefix_rfl
  alert := by
    constructor
    · intro ps ending e h
      cases h
    · intro _ h hmem
      cases hmem
    · intro ps h
      cases h
    · intro h
      cases h
    · intro _ h
      cases h
    · rintro (h | h) <;> cases h

end Ctguard.DiskscanDaemon
