import Ctguard.SingleRun

/-!
# Whether a single run comes back

The main thread waits for the end of the scan. It is lost if a task ends before it has passed it
on: `scan_task` by sending a kill message ahead of it, `event_task` and `alert_task` by an
exception. Then the main thread waits for ever. Else it returns.
-/

namespace Ctguard.DiskscanDaemon

open AlertTask

variable {host : FileHost} {cfg : DiskscanConfig} {unitTest : Bool} {printTime : ℤ → String}
  {s s' : State} {db : Table} {diffs : DiffTable} {steps : List Step} {x : Step}

/-- No thread can take a step any more that changes anything, but end with an exception. -/
def Quiescent (host : FileHost) (cfg : DiskscanConfig) (singlerun unitTest : Bool)
    (printTime : ℤ → String) (s : State) : Prop :=
  ∀ x s', (∀ w, x ≠ .fail w) → step host cfg singlerun unitTest printTime s x = some s' → s' = s

section Lost

/-- A step ends the `try` block of a thread with an exception: one that may come at any time, one
of an examination, or one that handling a message throws. -/
def Throws (host : FileHost) (cfg : DiskscanConfig) (w : Worker) (s : State) : Step → Prop
  | .fail w' => w' = w
  | .examine answers => w = .event ∧ ∃ path flags what, s.eventTask = .examining path flags ∧
      construct host cfg.maxDiffSize answers s.diffs path flags.chkContent flags.chkDiff =
        .error what
  | .alert _ => w = .alert ∧ s.alertTask = .putting [] .throws
  | _ => False

/-- A task does not fail before it has passed on the end of the scan. For `scan_task`, this is
about the kill message that it sends behind its `catch`. -/
def CarriesEnd (host : FileHost) (cfg : DiskscanConfig) (s : State) (x : Step) : Prop :=
  (∀ found, x = .scan found → s.scanTask = .leaving → .endscan ∈ markersOf s.eventPuts) ∧
    (Throws host cfg .event s x → .endscan ∈ markersIn s.arrivals) ∧
    (Throws host cfg .alert s x → .endscan ∈ markersIn s.handled)

/-- A kill message comes before the end of the scan. -/
def KillFirst (es : List (String × Flags)) : Prop :=
  ¬ NoKill es ∧ .endscan ∉ markersOf (beforeKill es)

def EventLost (s : State) : Prop :=
  (s.eventTask = .leaving ∨ s.eventTask = .ended) ∧ .endscan ∉ markersIn s.arrivals

def AlertLost (s : State) : Prop :=
  (s.alertTask = .leaving ∨ s.alertTask = .ended) ∧ .endscan ∉ markersIn s.handled

/-- The end of the scan will not be handled. -/
def State.Lost (s : State) : Prop := KillFirst s.eventPuts ∨ EventLost s ∨ AlertLost s

theorem killFirst_put {es : List (String × Flags)} {e : String × Flags}
    (he : e.2.kill = true → .endscan ∈ markersOf es) : KillFirst (es ++ [e]) ↔ KillFirst es := by
  by_cases hnone : NoKill es
  · refine iff_of_false ?_ fun h => h.1 hnone
    rintro ⟨hkill, hend⟩
    rw [noKill_append, noKill_singleton, not_and, Bool.not_eq_false] at hkill
    rw [beforeKill_append_of_noKill hnone, markersOf_append, List.mem_append, not_or] at hend
    exact hend.1 (he (hkill hnone))
  · rw [KillFirst, KillFirst, beforeKill_append_of_kill hnone]
    exact and_congr_left fun _ => iff_of_true (not_noKill_append hnone _) hnone

theorem killFirst_kill {es : List (String × Flags)} {e : String × Flags} (he : e.2.kill = true) :
    KillFirst (es ++ [e]) ↔ KillFirst es ∨ .endscan ∉ markersOf es := by
  have hkill : ¬ NoKill (es ++ [e]) := by
    rw [noKill_append, noKill_singleton, he]
    simp
  by_cases hnone : NoKill es
  · have hbefore : beforeKill (es ++ [e]) = es := by
      rw [beforeKill_append_of_noKill hnone]
      simp [beforeKill, he]
    rw [KillFirst, hbefore]
    constructor
    · exact fun h => .inr h.2
    · rintro (h | h)
      · exact absurd hnone h.1
      · exact ⟨hkill, h⟩
  · rw [KillFirst, KillFirst, beforeKill_append_of_kill hnone]
    constructor
    · exact fun h => .inl ⟨hnone, h.2⟩
    · rintro (h | h)
      · exact ⟨hkill, h.2⟩
      · exact ⟨hkill, fun hmem => h ((markersOf_isPrefix (beforeKill_isPrefix es)).subset hmem)⟩

/-- The end of the scan is lost in a step exactly if a task fails before it has passed it on. -/
theorem lost_step (h : SingleInv s) (hstep : step host cfg true unitTest printTime s x = some s') :
    s'.Lost ↔ s.Lost ∨ ¬ CarriesEnd host cfg s x := by
  have hcarries : (∀ found, x = .scan found → s.scanTask ≠ .leaving) →
      ¬ Throws host cfg .event s x → ¬ Throws host cfg .alert s x → CarriesEnd host cfg s x :=
    fun hscan hevent halert => ⟨fun found hx hphase => absurd hphase (hscan found hx),
      fun hthrows => absurd hthrows hevent, fun hthrows => absurd hthrows halert⟩
  have hsame : CarriesEnd host cfg s x → (s'.Lost ↔ s.Lost) →
      (s'.Lost ↔ s.Lost ∨ ¬ CarriesEnd host cfg s x) := by
    intro hc hlost
    rw [hlost, or_iff_left (not_not_intro hc)]
  have hkeeps : CarriesEnd host cfg s x → (KillFirst s'.eventPuts ↔ KillFirst s.eventPuts) →
      (EventLost s' ↔ EventLost s) → (AlertLost s' ↔ AlertLost s) →
      (s'.Lost ↔ s.Lost ∨ ¬ CarriesEnd host cfg s x) := by
    intro hc hkill hevent halert
    apply hsame hc
    rw [State.Lost, State.Lost, hkill, hevent, halert]
  have hevents : (KillFirst s'.eventPuts ↔ KillFirst s.eventPuts) →
      (EventLost s' ↔ EventLost s ∨ ¬ CarriesEnd host cfg s x) → (AlertLost s' ↔ AlertLost s) →
      (s'.Lost ↔ s.Lost ∨ ¬ CarriesEnd host cfg s x) := by
    intro hkill hevent halert
    rw [State.Lost, State.Lost, hkill, hevent, halert, or_right_comm, ← or_assoc]
  have halerts : (KillFirst s'.eventPuts ↔ KillFirst s.eventPuts) →
      (EventLost s' ↔ EventLost s) → (AlertLost s' ↔ AlertLost s ∨ ¬ CarriesEnd host cfg s x) →
      (s'.Lost ↔ s.Lost ∨ ¬ CarriesEnd host cfg s x) := by
    intro hkill hevent halert
    rw [State.Lost, State.Lost, hkill, hevent, halert, ← or_assoc, ← or_assoc, ← or_assoc]
  have hflow := h.turns.flow
  cases does_of_step hstep with
  | stops errors hx hmain =>
    have hphase := h.alone.main
    rw [hmain] at hphase
    exact hphase.elim
  | lists found hphase =>
    exact hkeeps (hcarries (by simp [hphase]) id id) Iff.rfl Iff.rfl Iff.rfl
  | takesScanKill found hphase =>
    exact hkeeps (hcarries (by simp [hphase]) id id) Iff.rfl Iff.rfl Iff.rfl
  | nextScan found hphase =>
    exact hkeeps (hcarries (by simp [hphase]) id id) Iff.rfl Iff.rfl Iff.rfl
  | @putsScan e es stop found hphase =>
    refine hkeeps (hcarries (by simp [hphase]) id id) ?_ Iff.rfl Iff.rfl
    rw [State.eventPuts, s.eventPuts_put]
    apply killFirst_put
    intro hkill
    cases stop with
    | false => simp [h.scan.puts _ hphase e List.mem_cons_self] at hkill
    | true =>
      have hover : .endscan ∈ markersIn s.handled :=
        h.scan.passed (.inr (not_noKill_append (h.scan.stopping _ hphase).1 _))
      exact hflow.handled_isPrefix.subset hover
  | leavesScan found hphase =>
    have hc : CarriesEnd host cfg s (.scan found) ↔ .endscan ∈ markersOf s.eventPuts :=
      ⟨fun hc => hc.1 found rfl hphase, fun hend => ⟨fun _ _ _ => hend, False.elim, False.elim⟩⟩
    have hkill : KillFirst (s.eventTaken ++ (s.eventQueue ++ [killEvent])) ↔
        KillFirst s.eventPuts ∨ ¬ CarriesEnd host cfg s (.scan found) := by
      rw [s.eventPuts_put, hc]
      exact killFirst_kill rfl
    exact (or_congr_left hkill).trans (or_right_comm ..)
  | takesEvent hphase hqueue hspecial hrunning =>
    refine hkeeps (hcarries (by simp) id id) ?_ ?_ Iff.rfl
    · rw [State.eventPuts, State.eventPuts_take hqueue]
    · exact iff_of_false (by simp [EventLost]) (by simp [EventLost, hphase])
  | takesSpecial stop hphase hqueue hspecial hstop =>
    refine hkeeps (hcarries (by simp) id id) ?_ ?_ Iff.rfl
    · rw [State.eventPuts, State.eventPuts_take hqueue]
    · exact iff_of_false (by simp [EventLost]) (by simp [EventLost, hphase])
  | @putsHanded hd stop hphase =>
    have hnot : ¬ EventLost s := by simp [EventLost, hphase]
    have hc : CarriesEnd host cfg s .event := hcarries (by simp) id id
    cases stop with
    | false => exact hkeeps hc Iff.rfl (iff_of_false (by simp [EventLost]) hnot) Iff.rfl
    | true =>
      -- the kill message was taken before the end of the scan
      obtain ⟨hmarker, hkill⟩ := h.event.stopping hd hphase
      have hevent := hflow.event
      rw [hphase] at hevent
      have hfirst : .endscan ∉ markersIn (s.dataTaken ++ (s.fileDataQueue ++ [hd])) →
          KillFirst s.eventPuts := by
        intro hend
        rw [s.arrivals_put, markersIn_append,
          show markersIn s.arrivals ++ markersIn [hd] = markersOf s.eventTaken from hevent] at hend
        refine ⟨not_noKill_append hkill _, ?_⟩
        rw [State.eventPuts, beforeKill_append_of_kill hkill]
        exact fun hmem => hend ((markersOf_isPrefix (beforeKill_isPrefix _)).subset hmem)
      apply hsame hc
      constructor
      · rintro (hlost | hlost | hlost)
        · exact .inl hlost
        · exact .inl (hfirst hlost.2)
        · exact .inr (.inr hlost)
      · rintro (hlost | hlost | hlost)
        · exact .inl hlost
        · exact absurd hlost hnot
        · exact .inr (.inr hlost)
  | leavesEvent hphase =>
    refine hkeeps (hcarries (by simp) id id) Iff.rfl ?_ Iff.rfl
    have hmarkers : markersIn (s.dataTaken ++ (s.fileDataQueue ++ [killHanded])) =
        markersIn s.arrivals := by
      rw [s.arrivals_put, markersIn_append]
      exact List.append_nil _
    rw [EventLost, EventLost, State.arrivals, hmarkers, hphase]
    simp
  | examines hphase hresult =>
    refine hkeeps (hcarries (by simp) ?_ ?_) Iff.rfl ?_ Iff.rfl
    · rintro ⟨-, path', flags', what, hphase', herror⟩
      rw [hphase] at hphase'
      obtain ⟨rfl, rfl⟩ := EventPhase.examining.inj hphase'
      simp [hresult] at herror
    · rintro ⟨hw, -⟩
      cases hw
    · exact iff_of_false (by simp [EventLost]) (by simp [EventLost, hphase])
  | @examinesNot answers path flags what hphase hresult =>
    have hc : CarriesEnd host cfg s (.examine answers) ↔ .endscan ∈ markersIn s.arrivals := by
      constructor
      · exact fun hc => hc.2.1 ⟨rfl, path, flags, what, hphase, hresult⟩
      · refine fun hend => ⟨by simp, fun _ => hend, ?_⟩
        rintro ⟨hw, -⟩
        cases hw
    have hnot : ¬ EventLost s := by simp [EventLost, hphase]
    refine hevents Iff.rfl ?_ Iff.rfl
    rw [hc, or_iff_right hnot]
    exact and_iff_right (.inl rfl)
  | putsRealtime now hphase => simp [h.alone.rteventTask] at hphase
  | leavesRtevent now hphase => simp [h.alone.rteventTask] at hphase
  | takesKill now hphase hqueue hkill =>
    refine hkeeps (hcarries (by simp) (by simp [Throws]) (by simp [Throws, hphase])) Iff.rfl ?_ ?_
    · rw [EventLost, EventLost, State.arrivals, State.arrivals, hqueue]
      simp
    · exact iff_of_false (by simp [AlertLost]) (by simp [AlertLost, hphase])
  | handles now hphase hqueue hkill hrunning hresult =>
    refine hkeeps (hcarries (by simp) (by simp [Throws]) (by simp [Throws, hphase])) Iff.rfl ?_ ?_
    · rw [EventLost, EventLost, State.arrivals, State.arrivals, hqueue]
      simp
    · exact iff_of_false (by simp [AlertLost]) (by simp [AlertLost, hphase])
  | opens now hphase =>
    refine hkeeps (hcarries (by simp) (by simp [Throws]) (by simp [Throws, hphase])) Iff.rfl
      Iff.rfl ?_
    exact iff_of_false (by simp [AlertLost]) (by simp [AlertLost, hphase])
  | @puts p ps ending now hphase =>
    have hc : CarriesEnd host cfg s (.alert now) :=
      hcarries (by simp) (by simp [Throws]) (by simp [Throws, hphase])
    have hnot : ¬ AlertLost s := by simp [AlertLost, hphase]
    cases p with
    | event e =>
      refine hkeeps hc ?_ Iff.rfl (iff_of_false (by simp [AlertLost]) hnot)
      rw [State.eventPuts]
      change KillFirst (s.eventTaken ++ (s.eventQueue ++ [e])) ↔ _
      rw [s.eventPuts_put]
      apply killFirst_put
      intro hkill
      simp [h.alert.events _ _ e hphase List.mem_cons_self] at hkill
    | alert a => exact hkeeps hc Iff.rfl Iff.rfl (iff_of_false (by simp [AlertLost]) hnot)
    | kill => exact hkeeps hc Iff.rfl Iff.rfl (iff_of_false (by simp [AlertLost]) hnot)
  | goesOn now hphase =>
    refine hkeeps (hcarries (by simp) (by simp [Throws]) (by simp [Throws, hphase])) Iff.rfl
      Iff.rfl ?_
    exact iff_of_false (by simp [AlertLost]) (by simp [AlertLost, hphase])
  | returns now hphase =>
    -- `event_task` has ended without passing it on
    obtain ⟨hended, hmarkers, -⟩ := h.alert.returns _ hphase
    have hnot : ¬ AlertLost s := by simp [AlertLost, hphase]
    have hbefore : .endscan ∉ markersIn s.handled → EventLost s :=
      fun hend => ⟨.inr hended, hmarkers ▸ hend⟩
    apply hsame (hcarries (by simp) (by simp [Throws]) (by simp [Throws, hphase]))
    constructor
    · rintro (hlost | hlost | hlost)
      · exact .inl hlost
      · exact .inr (.inl hlost)
      · exact .inr (.inl (hbefore hlost.2))
    · rintro (hlost | hlost | hlost)
      · exact .inl hlost
      · exact .inr (.inl hlost)
      · exact absurd hlost hnot
  | throws now hphase =>
    have hc : CarriesEnd host cfg s (.alert now) ↔ .endscan ∈ markersIn s.handled := by
      constructor
      · exact fun hc => hc.2.2 ⟨rfl, hphase⟩
      · refine fun hend => ⟨by simp, ?_, fun _ => hend⟩
        rintro ⟨hw, -⟩
        cases hw
    have hnot : ¬ AlertLost s := by simp [AlertLost, hphase]
    refine halerts Iff.rfl Iff.rfl ?_
    rw [hc, or_iff_right hnot]
    exact and_iff_right (.inl rfl)
  | leavesAlert now hphase =>
    refine hkeeps (hcarries (by simp) (by simp [Throws]) (by simp [Throws, hphase])) Iff.rfl
      Iff.rfl ?_
    rw [AlertLost, AlertLost, hphase]
    simp [State.putOutput]
  | @fails w hawake =>
    have hother : w ≠ .event → w ≠ .alert → CarriesEnd host cfg s (.fail w) :=
      fun hevent halert => hcarries (by simp) hevent halert
    cases w with
    | event =>
      have hc : CarriesEnd host cfg s (.fail .event) ↔ .endscan ∈ markersIn s.arrivals :=
        ⟨fun hc => hc.2.1 rfl, fun hend => ⟨by simp, fun _ => hend, fun hw => (by cases hw)⟩⟩
      have hnot : ¬ EventLost s := by
        rintro ⟨hphase | hphase, -⟩
        · simp [State.awake, EventPhase.awake, hphase] at hawake
        · simp [State.awake, EventPhase.awake, hphase] at hawake
      refine hevents Iff.rfl ?_ Iff.rfl
      rw [hc, or_iff_right hnot]
      exact and_iff_right (.inl rfl)
    | alert =>
      have hc : CarriesEnd host cfg s (.fail .alert) ↔ .endscan ∈ markersIn s.handled :=
        ⟨fun hc => hc.2.2 rfl, fun hend => ⟨by simp, fun hw => (by cases hw), fun _ => hend⟩⟩
      have hnot : ¬ AlertLost s := by
        rintro ⟨hphase | hphase, -⟩
        · simp [State.awake, hphase] at hawake
        · simp [State.awake, hphase] at hawake
      refine halerts Iff.rfl Iff.rfl ?_
      rw [hc, or_iff_right hnot]
      exact and_iff_right (.inl rfl)
    | _ => exact hkeeps (hother (by simp) (by simp)) Iff.rfl Iff.rfl Iff.rfl
  | _ =>
    exact hkeeps (hcarries (by simp) (by simp [Throws]) (by simp [Throws])) Iff.rfl Iff.rfl Iff.rfl

theorem not_lost_iff_step (h : SingleInv s)
    (hstep : step host cfg true unitTest printTime s x = some s') :
    ¬ s'.Lost ↔ ¬ s.Lost ∧ CarriesEnd host cfg s x := by
  rw [lost_step h hstep, not_or, not_not]

/-- The main thread goes on only behind the end of the scan. -/
theorem SingleInv.not_lost (h : SingleInv s) (hend : .endscan ∈ markersIn s.handled) :
    ¬ s.Lost := by
  have harrived : .endscan ∈ markersIn s.arrivals :=
    (markersIn_isPrefix (h.turns.flow.handled.trans (List.prefix_append _ _))).subset hend
  rintro (hlost | hlost | hlost)
  · exact hlost.2 (h.event.forwarded.subset harrived)
  · exact hlost.2 harrived
  · exact hlost.2 hend

end Lost

section Tasks

theorem fileDataQueue_handleMessage {hd : Handed} :
    (handleMessage cfg unitTest hd s).fileDataQueue = s.fileDataQueue := by
  simp only [handleMessage]
  split <;> rfl

variable {singlerun : Bool} (hquiet : Quiescent host cfg singlerun unitTest printTime s)

include hquiet

theorem Quiescent.scanTask : s.scanTask = .ended ∨ (s.scanTask = .loop ∧ s.scanQueue = []) := by
  cases hphase : s.scanTask with
  | ended => exact .inl rfl
  | loop =>
    refine .inr ⟨rfl, ?_⟩
    cases hqueue : s.scanQueue with
    | nil => rfl
    | cons e rest =>
      have hsame := hquiet (.scan []) _ (by simp)
        (by simp only [step, scanStep, hphase, hqueue]; rfl)
      simpa [hqueue] using congrArg (fun u => u.scanQueue.length) hsame
  | putting puts stop =>
    cases puts with
    | nil =>
      have hsame := hquiet (.scan []) _ (by simp) (by simp only [step, scanStep, hphase]; rfl)
      have hnext := congrArg State.scanTask hsame
      cases stop <;> simp [hphase] at hnext
    | cons e es =>
      have hsame := hquiet (.scan []) _ (by simp) (by simp only [step, scanStep, hphase]; rfl)
      simpa using congrArg (fun u => u.eventQueue.length) hsame
  | leaving =>
    have hsame := hquiet (.scan []) _ (by simp) (by simp only [step, scanStep, hphase]; rfl)
    simpa [hphase] using congrArg State.scanTask hsame

theorem Quiescent.eventTask : s.eventTask = .ended ∨ (s.eventTask = .loop ∧ s.eventQueue = []) := by
  cases hphase : s.eventTask with
  | ended => exact .inl rfl
  | loop =>
    refine .inr ⟨rfl, ?_⟩
    cases hqueue : s.eventQueue with
    | nil => rfl
    | cons e rest =>
      have hsame := hquiet .event _ (by simp) (by simp only [step, eventStep, hphase, hqueue]; rfl)
      simpa [hqueue] using congrArg (fun u => u.eventQueue.length) hsame
  | examining path flags =>
    have hsame := hquiet (.examine missingAnswers) _ (by simp)
      (by simp only [step, examineStep, hphase]; rfl)
    have hnext := congrArg State.eventTask hsame
    simp only [hphase, examination] at hnext
    split at hnext <;> cases hnext
  | putting hd stop =>
    have hsame := hquiet .event _ (by simp) (by simp only [step, eventStep, hphase]; rfl)
    simpa using congrArg (fun u => u.fileDataQueue.length) hsame
  | leaving =>
    have hsame := hquiet .event _ (by simp) (by simp only [step, eventStep, hphase]; rfl)
    simpa [hphase] using congrArg State.eventTask hsame

theorem Quiescent.alertTask :
    s.alertTask = .ended ∨ (s.alertTask = .loop ∧ s.fileDataQueue = []) := by
  cases hphase : s.alertTask with
  | ended => exact .inl rfl
  | opening =>
    have hsame := hquiet (.alert 0) _ (by simp) (by simp only [step, alertStep, hphase]; rfl)
    simpa [hphase] using congrArg State.alertTask hsame
  | loop =>
    refine .inr ⟨rfl, ?_⟩
    cases hqueue : s.fileDataQueue with
    | nil => rfl
    | cons hd rest =>
      have hrest : ∃ s', step host cfg singlerun unitTest printTime s (.alert 0) = some s' ∧
          s'.fileDataQueue = rest := by
        simp only [step, alertStep, hphase, hqueue]
        split
        · exact ⟨_, rfl, rfl⟩
        · exact ⟨_, rfl, fileDataQueue_handleMessage⟩
      obtain ⟨s', hstep, hrest⟩ := hrest
      rw [hquiet (.alert 0) s' (by simp) hstep, hqueue] at hrest
      simpa using congrArg List.length hrest
  | putting puts ending =>
    cases puts with
    | nil =>
      cases ending with
      | goesOn =>
        have hsame := hquiet (.alert 0) _ (by simp) (by simp only [step, alertStep, hphase]; rfl)
        simpa [hphase] using congrArg State.alertTask hsame
      | returns =>
        have hsame := hquiet (.alert 0) _ (by simp) (by simp only [step, alertStep, hphase]; rfl)
        simpa [hphase] using congrArg State.alertTask hsame
      | throws =>
        have hsame := hquiet (.alert 0) _ (by simp) (by simp only [step, alertStep, hphase]; rfl)
        simpa [hphase, State.catchAll] using congrArg State.alertTask hsame
    | cons p ps =>
      have hsame := hquiet (.alert 0) _ (by simp) (by simp only [step, alertStep, hphase]; rfl)
      simpa [hphase] using congrArg State.alertTask hsame
  | leaving =>
    have hsame := hquiet (.alert 0) _ (by simp) (by simp only [step, alertStep, hphase]; rfl)
    simpa [hphase] using congrArg State.alertTask hsame

theorem Quiescent.outputTask (hbusy : s.outputTask.Busy) : s.outputTask.phase = .ended ∨
    (s.outputTask.phase = .loop ∧ s.outputTask.queue = []) := by
  apply OutputTask.idle_cases (t := OutputTask.diskscan) hbusy
  intro x task hx hstep
  have hstep' : step host cfg singlerun unitTest printTime s (.output x) =
      some { s with outputTask := task } := by
    cases x with
    | emplace m => exact absurd rfl (hx m)
    | take _ | timeout | resend _ => simp [step, hstep]
  exact congrArg State.outputTask (hquiet _ _ (by simp) hstep')

end Tasks

section Progress

variable (hquiet : Quiescent host cfg true unitTest printTime s) (h : SingleInv s)

include hquiet

theorem Quiescent.main (halone : Alone s) : (s.main = .waitingScan ∧ s.scanIsRunning = true) ∨
    s.main = .joining [] ∨ ∃ w ws, s.main = .joining (w :: ws) ∧ s.hasEnded w = false := by
  have hmain := halone.main
  cases hphase : s.main with
  | starting =>
    have hsame := hquiet .main _ (by simp) (by simp only [step, mainStep, hphase]; rfl)
    simpa [hphase, startScan] using congrArg State.main hsame
  | queueing puts initial =>
    rw [hphase] at hmain
    obtain ⟨rfl, -⟩ := hmain
    cases puts with
    | nil =>
      have hsame := hquiet .main _ (by simp) (by simp only [step, mainStep, hphase, if_true]; rfl)
      simpa [hphase] using congrArg State.main hsame
    | cons e es =>
      have hsame := hquiet .main _ (by simp) (by simp only [step, mainStep, hphase]; rfl)
      simpa using congrArg (fun u => u.scanQueue.length) hsame
  | waitingScan =>
    refine .inl ⟨rfl, ?_⟩
    by_contra hscan
    rw [Bool.not_eq_true] at hscan
    have hsame := hquiet .main { s with main := .killingScan } (by simp)
      (by simp [step, mainStep, hphase, hscan])
    simpa [hphase] using congrArg State.main hsame
  | killingScan =>
    have hsame := hquiet .main _ (by simp) (by simp only [step, mainStep, hphase]; rfl)
    simpa using congrArg (fun u => u.scanQueue.length) hsame
  | joining ws =>
    cases ws with
    | nil => exact .inr (.inl rfl)
    | cons w ws =>
      refine .inr (.inr ⟨w, ws, rfl, ?_⟩)
      by_contra hended
      rw [Bool.not_eq_false] at hended
      have hsame := hquiet .main { s with main := .joining ws } (by simp)
        (by simp [step, mainStep, hphase, hended])
      have hnext : ws = w :: ws := by simpa [hphase] using congrArg State.main hsame
      simpa using congrArg List.length hnext
  | waiting =>
    rw [hphase] at hmain
    exact hmain.elim
  | stopping =>
    rw [hphase] at hmain
    exact hmain.elim
  | killingRtevent =>
    rw [hphase] at hmain
    exact hmain.elim

include h

/-- Once the main thread joins the others, all of them end. -/
theorem Quiescent.all_ended {ws : List Worker} (hmain : s.main = .joining ws) :
    ∀ w ∈ workers true, s.hasEnded w = true := by
  have hscan : s.scanTask = .ended := by
    refine hquiet.scanTask.resolve_right ?_
    rintro ⟨hphase, hqueue⟩
    apply h.scan.joining ws hmain
    rw [hqueue, List.append_nil]
    exact h.scan.going (by rw [hphase]; rfl)
  have hevent : s.eventTask = .ended := by
    refine hquiet.eventTask.resolve_right ?_
    rintro ⟨hphase, hqueue⟩
    apply h.scan.ended hscan
    rw [State.eventPuts, hqueue, List.append_nil]
    exact h.event.going (by rw [hphase]; rfl)
  have halert : s.alertTask = .ended := by
    refine hquiet.alertTask.resolve_right ?_
    rintro ⟨hphase, hqueue⟩
    obtain ⟨pre, hd, harrivals, hkill, -⟩ := h.event.ended hevent
    rw [State.arrivals, hqueue, List.append_nil] at harrivals
    have hnone := h.alert.going (by rw [hphase]; rfl) hd (by simp [harrivals])
    simp [hkill] at hnone
  have houtput : s.outputTask.phase = .ended := by
    refine (hquiet.outputTask h.alert.busy).resolve_right ?_
    rintro ⟨hphase, hqueue⟩
    rcases h.alert.ended halert with hreads | ⟨m, hm, -⟩
    · simp [hphase, OutputTask.Phase.reads] at hreads
    · simp [hqueue] at hm
  intro w hw
  cases w with
  | rtevent => simp [workers] at hw
  | watch => simp [workers] at hw
  | _ => simp [State.hasEnded, hscan, hevent, halert, houtput]

/-- The main thread waits for the scan only if its end is lost. -/
theorem Quiescent.lost (hmain : s.main = .waitingScan) (hrunning : s.scanIsRunning = true) :
    s.Lost := by
  have hscans : s.scans = 1 := by
    have hphase := h.alone.main
    rwa [hmain] at hphase
  have hnot : .endscan ∉ markersIn s.handled := by
    rw [← h.turns.over_iff hscans, hrunning]
    simp
  have hflow := h.turns.flow
  rcases hquiet.alertTask with halert | ⟨halert, hdata⟩
  · exact .inr (.inr ⟨.inr halert, hnot⟩)
  have hhandled : s.handled = s.arrivals := by
    rw [hflow.alive (by rw [halert]; rfl), State.arrivals, hdata, List.append_nil]
  rcases hquiet.eventTask with hevent | ⟨hevent, hevents⟩
  · exact .inr (.inl ⟨.inr hevent, hhandled ▸ hnot⟩)
  have hmarkers : markersIn s.handled = markersOf s.eventPuts := by
    have hput := hflow.event
    rw [hevent] at hput
    rw [hhandled, show markersIn s.arrivals = markersOf s.eventTaken from hput, State.eventPuts,
      hevents, List.append_nil]
  rcases hquiet.scanTask with hscan | ⟨hscan, hqueue⟩
  · refine .inl ⟨h.scan.ended hscan, ?_⟩
    rw [hmarkers] at hnot
    exact fun hmem => hnot ((markersOf_isPrefix (beforeKill_isPrefix _)).subset hmem)
  -- both phases were forwarded, so the end was asked for
  have hmid : .midscan ∈ markersOf s.eventPuts := by
    have hput := hflow.scan
    rw [hscan] at hput
    have htaken := hflow.main.starts
    rw [hqueue, hmain, hscans, List.append_nil] at htaken
    have hbegun : begun (markersOf s.eventPuts) = starts (2 * 1) :=
      (show begun (markersOf s.eventPuts) = markersOf s.scanTaken from hput).trans
        ((congrArg markersOf (List.append_nil _).symm).trans htaken)
    apply List.mem_of_mem_filter
    change _ ∈ begun (markersOf s.eventPuts)
    rw [hbegun]
    decide
  rcases h.alert.asked (by rw [halert]; rfl) (hmarkers ▸ hmid) with hend | hend
  · exact absurd (hmarkers ▸ hend) hnot
  · rw [halert] at hend
    exact absurd hend List.not_mem_nil

theorem Quiescent.returned_iff : s.main = .joining [] ↔ ¬ s.Lost := by
  have hpassed : ∀ ws, s.main = .joining ws → ¬ s.Lost :=
    fun ws hws => h.not_lost (h.scan.passed (.inr (h.scan.joining ws hws)))
  constructor
  · exact hpassed []
  · intro hlost
    rcases hquiet.main h.alone with ⟨hmain, hrunning⟩ | hmain | ⟨w, ws, hmain, hended⟩
    · exact absurd (hquiet.lost h hmain hrunning) hlost
    · exact hmain
    · have hsub := h.alone.main
      rw [hmain] at hsub
      have hw := hquiet.all_ended h hmain w (hsub.2 List.mem_cons_self)
      simp [hended] at hw

end Progress

section Runs

/-- A single run comes back. Where no thread can take a step any more, `daemon` has returned,
exactly if no task has failed before it passed on the end of the scan; else the main thread waits
for that. -/
theorem singleRun_returns_iff (steps : List Step)
    (h : run host cfg true unitTest printTime db diffs steps = some s)
    (hquiet : Quiescent host cfg true unitTest printTime s) :
    (s.main = .joining [] ↔ StepsMeet (step host cfg true unitTest printTime)
      (CarriesEnd host cfg) (initial db diffs) steps) ∧
    (s.main ≠ .joining [] → s.main = .waitingScan ∧ s.scanIsRunning = true) := by
  have hinv : SingleInv s := runSteps_invariant (fun hu hx => hu.step hx) SingleInv.initial h
  constructor
  · rw [hquiet.returned_iff hinv]
    refine stepsMeet_iff (I := SingleInv) (P := fun s => ¬ s.Lost) (fun hu hx => hu.step hx)
      (fun hu hx => not_lost_iff_step hu hx) .initial ?_ h
    rintro (hlost | hlost | hlost)
    · exact hlost.1 noKill_nil
    · rcases hlost.1 with hphase | hphase <;> cases hphase
    · rcases hlost.1 with hphase | hphase <;> cases hphase
  · intro hne
    rcases hquiet.main hinv.alone with hmain | hmain | ⟨w, ws, hmain, hended⟩
    · exact hmain
    · exact absurd hmain hne
    · have hsub := hinv.alone.main
      rw [hmain] at hsub
      have hw := hquiet.all_ended hinv hmain w (hsub.2 List.mem_cons_self)
      simp [hended] at hw

/-- No thread can take a step. -/
structure Resting (s : State) : Prop where
  main : (s.main = .waitingScan ∧ s.scanIsRunning = true) ∨ s.main = .joining []
  scan : s.scanTask = .ended ∨ (s.scanTask = .loop ∧ s.scanQueue = [])
  event : s.eventTask = .ended ∨ (s.eventTask = .loop ∧ s.eventQueue = [])
  rtevent : s.rteventTask = .ended
  alert : s.alertTask = .ended ∨ (s.alertTask = .loop ∧ s.fileDataQueue = [])
  output : s.outputTask.phase = .ended
  watchers : s.watchers = 0

theorem Resting.step_eq_none {singlerun : Bool} (h : Resting s) (x : Step) :
    step host cfg singlerun unitTest printTime s x = none := by
  cases x with
  | main => rcases h.main with ⟨hmain, hscan⟩ | hmain <;> simp [step, mainStep, *]
  | signal => rcases h.main with ⟨hmain, -⟩ | hmain <;> simp [step, hmain]
  | timeout => rcases h.main with ⟨hmain, -⟩ | hmain <;> simp [step, hmain]
  | scan found => rcases h.scan with hphase | ⟨hphase, hqueue⟩ <;> simp [step, scanStep, *]
  | event =>
    rcases h.event with hphase | ⟨hphase, hqueue⟩ <;> simp [step, eventStep, putHanded, *]
  | examine answers =>
    rcases h.event with hphase | ⟨hphase, -⟩ <;> simp [step, examineStep, hphase]
  | rtevent now => simp [step, rteventStep, putHanded, h.rtevent]
  | examineRealtime answers => simp [step, examineRealtimeStep, h.rtevent]
  | notify time path chkContent chkDiff => simp [step, h.watchers]
  | created path recursive => simp [step, h.watchers]
  | watchReturns => simp [step, h.watchers]
  | alert now => rcases h.alert with hphase | ⟨hphase, hqueue⟩ <;> simp [step, alertStep, *]
  | output y => cases y <;> simp [step, OutputTask.step, h.output]
  | fail w =>
    cases w with
    | scan => rcases h.scan with hphase | ⟨hphase, hqueue⟩ <;> simp [step, State.awake, *]
    | event =>
      rcases h.event with hphase | ⟨hphase, hqueue⟩ <;>
        simp [step, State.awake, EventPhase.awake, *]
    | rtevent => simp [step, State.awake, EventPhase.awake, h.rtevent]
    | alert => rcases h.alert with hphase | ⟨hphase, hqueue⟩ <;> simp [step, State.awake, *]
    | output => simp [step, State.awake, h.output]
    | watch => simp [step, State.awake, h.watchers]

theorem Resting.quiescent {singlerun : Bool} (h : Resting s) :
    Quiescent host cfg singlerun unitTest printTime s := by
  intro x s' _ hstep
  rw [h.step_eq_none x] at hstep
  cases hstep

def emptyConfig : DiskscanConfig where
  maxDiffSize := 0
  watches := []

/-- The tasks end one after the other once the kill message of the main thread comes. -/
def returningRun : List Step :=
  [.main, .main, .main, .main, .alert 0] ++ passesScan ++ [.main, .main, .scan [], .scan [],
    .scan [], .event, .event, .alert 0, .alert 0, .alert 0, .output (.take (.ok ())), .main, .main,
    .main, .main]

theorem singleRun_returns_iff_returned : ∃ s,
    run rootHost emptyConfig true false toString ∅ ∅ returningRun = some s ∧
      s.main = .joining [] ∧
      ((s.main = .joining [] ↔ StepsMeet (step rootHost emptyConfig true false toString)
          (CarriesEnd rootHost emptyConfig) (initial ∅ ∅) returningRun) ∧
        (s.main ≠ .joining [] → s.main = .waitingScan ∧ s.scanIsRunning = true)) := by
  refine ⟨_, rfl, rfl, singleRun_returns_iff returningRun rfl ?_⟩
  apply Resting.quiescent
  exact ⟨.inr rfl, .inl rfl, .inl rfl, rfl, .inl rfl, rfl, rfl⟩

/-- The database can not be opened, and nobody ends the scan. -/
def stuckRun : List Step :=
  [.fail .alert, .alert 0, .main, .main, .main, .main, .scan [], .scan [], .scan [], .scan [],
    .scan [], .scan [], .event, .event, .event, .event, .output (.take (.ok ()))]

theorem singleRun_gets_stuck : ∃ s,
    run rootHost emptyConfig true false toString ∅ ∅ stuckRun = some s ∧
      (∀ x, step rootHost emptyConfig true false toString s x = none) ∧
      s.main = .waitingScan ∧ s.scanIsRunning = true := by
  refine ⟨_, rfl, ?_, rfl, rfl⟩
  apply Resting.step_eq_none
  exact ⟨.inl ⟨rfl, rfl⟩, .inr ⟨rfl, rfl⟩, .inr ⟨rfl, rfl⟩, rfl, .inl rfl, rfl, rfl⟩

end Runs

end Ctguard.DiskscanDaemon
