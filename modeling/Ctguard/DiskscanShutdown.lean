import Ctguard.SingleRunReturn

/-!
# Whether the disk scanner gets stuck while stopping

The main thread clears `RUNNING` and sends a kill message to the two tasks at the front. A task that
takes a message then ends, whatever the message is, and passes one on; and a task that ends with an
exception has sent a kill message before. So there is always something left to take for a task that
has not ended, and the main thread joins all of them.
-/

namespace Ctguard.DiskscanDaemon

open AlertTask

variable {host : FileHost} {cfg : DiskscanConfig} {unitTest : Bool} {printTime : ℤ → String}
  {s s' : State} {db : Table} {diffs : DiffTable} {x : Step}

section Main

/-- The main thread has cleared `RUNNING`. -/
def MainPhase.late : MainPhase → Bool
  | .killingScan => true
  | .killingRtevent => true
  | .joining _ => true
  | _ => false

/-- The main thread has sent its first kill message, and its second one. -/
def MainPhase.asked : MainPhase → Bool × Bool
  | .killingRtevent => (true, false)
  | .joining _ => (true, true)
  | _ => (false, false)

/-- Only the main thread clears `RUNNING`, and it does not wait for the end of a scan. -/
structure Cleared (s : State) : Prop where
  late : s.running = !s.main.late
  waits : s.main ≠ .waitingScan
  joins : ∀ ws, s.main = .joining ws → ∀ w ∈ ws, w ∈ workers false

theorem Cleared.step (h : Cleared s)
    (hstep : step host cfg false unitTest printTime s x = some s') : Cleared s' := by
  have hrunning : s.main.late = false → s.running = true := fun hlate => by rw [h.late, hlate]; rfl
  cases does_of_step hstep with
  | starts hmain =>
    exact ⟨hrunning (by rw [hmain]; rfl), fun hs => (by cases hs), fun _ hs => (by cases hs)⟩
  | queues hmain =>
    exact ⟨hrunning (by rw [hmain]; rfl), fun hs => (by cases hs), fun _ hs => (by cases hs)⟩
  | waits hmain hsingle => cases hsingle
  | watches hmain =>
    exact ⟨hrunning (by rw [hmain]; rfl), fun hs => (by cases hs), fun _ hs => (by cases hs)⟩
  | resumes hmain =>
    exact ⟨hrunning (by rw [hmain]; rfl), fun hs => (by cases hs), fun _ hs => (by cases hs)⟩
  | sees hmain => exact absurd hmain h.waits
  | stops errors hx hmain =>
    exact ⟨hrunning (by rw [hmain]; rfl), fun hs => (by cases hs), fun _ hs => (by cases hs)⟩
  | ticks hmain => exact ⟨h.late, h.waits, h.joins⟩
  | rescans hmain =>
    exact ⟨hrunning (by rw [hmain]; rfl), fun hs => (by cases hs), fun _ hs => (by cases hs)⟩
  | clears hmain => exact ⟨rfl, fun hs => (by cases hs), fun _ hs => (by cases hs)⟩
  | killsScan hmain =>
    have hlate := h.late
    rw [hmain] at hlate
    exact ⟨hlate, fun hs => (by cases hs), fun _ hs => (by cases hs)⟩
  | killsRtevent hmain =>
    have hlate := h.late
    rw [hmain] at hlate
    refine ⟨hlate, fun hs => (by cases hs), fun ws hs => ?_⟩
    cases hs
    exact fun w hw => hw
  | joins hmain hended =>
    have hlate := h.late
    rw [hmain] at hlate
    refine ⟨hlate, fun hs => (by cases hs), fun ws hs => ?_⟩
    cases hs
    exact fun w hw => h.joins _ hmain w (List.mem_cons_of_mem _ hw)
  | @puts p ps ending now hphase => cases p <;> exact ⟨h.late, h.waits, h.joins⟩
  | @fails w hawake => cases w <;> exact ⟨h.late, h.waits, h.joins⟩
  | _ => exact ⟨h.late, h.waits, h.joins⟩

end Main

section Tasks

theorem not_noKill_cons {e : String × Flags} {es : List (String × Flags)}
    (h : ¬ NoKill (e :: es)) (he : e.2.kill = false) : ¬ NoKill es := by
  intro hes
  apply h
  rintro y (_ | ⟨_, hy⟩)
  · exact he
  · exact hes y hy

theorem kill_of_special {flags : Flags} (h : flags.special = false) : flags.kill = false := by
  rw [Flags.special, Bool.or_eq_false_iff, Bool.or_eq_false_iff, Bool.or_eq_false_iff] at h
  exact h.1.1.1

/-- The first kill message is there for `scan_task`. -/
def ScanAsked (s : State) : Prop :=
  s.main.asked.1 = true → s.scanTask.going = true → ¬ NoKill s.scanQueue

theorem ScanAsked.step {singlerun : Bool} (h : ScanAsked s)
    (hstep : step host cfg singlerun unitTest printTime s x = some s') : ScanAsked s' := by
  cases does_of_step hstep with
  | starts | queues | waits | watches | resumes | sees | stops | rescans | clears =>
    exact fun hasked => (by cases hasked)
  | killsScan hmain =>
    intro _ _
    rw [← List.nil_append (s.scanQueue ++ _)]
    exact not_noKill_put
  | killsRtevent hmain => exact fun _ => h (by rw [hmain]; rfl)
  | joins hmain hended => exact fun _ => h (by rw [hmain]; rfl)
  | lists found hphase hqueue hkill hrunning =>
    intro hasked _
    have hwaits := h hasked (by rw [hphase]; rfl)
    rw [hqueue] at hwaits
    exact not_noKill_cons hwaits hkill
  | takesScanKill | leavesScan => exact fun _ hgoing => (by cases hgoing)
  | putsScan found hphase => exact fun hasked hgoing => h hasked (by rw [hphase]; exact hgoing)
  | @nextScan stop found hphase =>
    cases stop with
    | false => exact fun hasked _ => h hasked (by rw [hphase]; rfl)
    | true => exact fun _ hgoing => (by cases hgoing)
  | creates hwatch => exact fun hasked hgoing => not_noKill_append (h hasked hgoing) _
  | @puts p ps ending now hphase => cases p <;> exact h
  | @fails w hawake =>
    cases w with
    | scan => exact fun _ hgoing => (by cases hgoing)
    | _ => exact h
  | _ => exact h

/-- The second kill message is there for `rtevent_task`, which leaves it in its queue. -/
def RteventAsked (s : State) : Prop :=
  s.main.asked.2 = true → s.rteventTask.going = true → ∃ e ∈ s.rteventQueue, e.2.2.kill = true

theorem RteventAsked.step (h : RteventAsked s)
    (hstep : step host cfg false unitTest printTime s x = some s') : RteventAsked s' := by
  cases does_of_step hstep with
  | starts | queues | waits | watches | resumes | sees | stops | rescans | clears | killsScan =>
    exact fun hasked => (by cases hasked)
  | killsRtevent hmain =>
    exact fun _ _ => ⟨(0, killEvent), List.mem_append_right _ (List.mem_singleton_self _), rfl⟩
  | joins hmain hended => exact fun _ => h (by rw [hmain]; rfl)
  | seesKill | leavesRtevent => exact fun _ hgoing => (by cases hgoing)
  | takesRtevent now hphase hqueue hkill hrunning =>
    intro hasked _
    obtain ⟨e, he, hkilled⟩ := h hasked (by rw [hphase]; rfl)
    rw [hqueue] at he
    rcases List.mem_cons.mp he with rfl | he
    · rw [hkill] at hkilled
      cases hkilled
    · exact ⟨e, he, hkilled⟩
  | @putsRealtime hd stop now hphase =>
    cases stop with
    | false => exact fun hasked _ => h hasked (by rw [hphase]; rfl)
    | true => exact fun _ hgoing => (by cases hgoing)
  | examinesRealtime hphase hresult => exact fun hasked _ => h hasked (by rw [hphase]; rfl)
  | examinesRealtimeNot => exact fun _ hgoing => (by cases hgoing)
  | notifies hwatch =>
    intro hasked hgoing
    obtain ⟨e, he, hkilled⟩ := h hasked hgoing
    exact ⟨e, List.mem_append_left _ he, hkilled⟩
  | @puts p ps ending now hphase => cases p <;> exact h
  | @fails w hawake =>
    cases w with
    | rtevent => exact fun _ hgoing => (by cases hgoing)
    | _ => exact h
  | _ => exact h

/-- `scan_task` has a kill message for `event_task` before it ends. -/
structure ScanTells (s : State) : Prop where
  puts : ∀ ps, s.scanTask = .putting ps true → ps = [killEvent] ∨ ps = []
  waits : s.scanTask = .ended ∨ s.scanTask = .putting [] true → s.eventTask.going = true →
    ¬ NoKill s.eventQueue

/-- What does not concern `scan_task`. -/
theorem ScanTells.congr (h : ScanTells s) (htask : s'.scanTask = s.scanTask)
    (hgoing : s'.eventTask.going = true → s.eventTask.going = true)
    (hqueue : s'.eventTask.going = true → ¬ NoKill s.eventQueue → ¬ NoKill s'.eventQueue) :
    ScanTells s' := by
  constructor
  · rw [htask]
    exact h.puts
  · rw [htask]
    exact fun hended hgoing' => hqueue hgoing' (h.waits hended (hgoing hgoing'))

theorem ScanTells.step {singlerun : Bool} (h : ScanTells s)
    (hstep : step host cfg singlerun unitTest printTime s x = some s') : ScanTells s' := by
  have hputKill : ¬ NoKill (s.eventQueue ++ [killEvent]) := by
    rw [← List.nil_append (s.eventQueue ++ _)]
    exact not_noKill_put
  have hlast : ∀ es, ScanPhase.putting es false ≠ .putting [] true := by simp
  cases does_of_step hstep with
  | lists found hphase hqueue hkill hrunning =>
    exact ⟨fun ps hps => (by cases hps), fun hended => (hended.elim nofun (absurd · (hlast _)))⟩
  | takesScanKill found hphase hqueue hkill =>
    refine ⟨fun ps hps => ?_, fun hended => (by rcases hended with h | h <;> cases h)⟩
    cases hps
    exact .inl rfl
  | @putsScan e es stop found hphase =>
    cases stop with
    | false =>
      exact ⟨fun ps hps => (by cases hps), fun hended => hended.elim nofun (absurd · (hlast _))⟩
    | true =>
      rcases h.puts _ hphase with heq | heq
      · cases heq
        refine ⟨fun ps hps => ?_, fun _ _ => hputKill⟩
        cases hps
        exact .inr rfl
      · cases heq
  | @nextScan stop found hphase =>
    cases stop with
    | false => exact ⟨fun ps hps => (by cases hps), fun hended => hended.elim nofun nofun⟩
    | true => exact ⟨fun ps hps => (by cases hps), fun _ => h.waits (.inr hphase)⟩
  | leavesScan found hphase => exact ⟨fun ps hps => (by cases hps), fun _ _ => hputKill⟩
  | takesEvent hphase hqueue hspecial hrunning =>
    refine h.congr rfl (fun _ => by rw [hphase]; rfl) fun _ hkill => ?_
    rw [hqueue] at hkill
    exact not_noKill_cons hkill (kill_of_special hspecial)
  | @takesSpecial e rest stop hphase hqueue hspecial hstop =>
    cases stop with
    | true => exact h.congr rfl (fun hgoing => (by cases hgoing)) fun hgoing => (by cases hgoing)
    | false =>
      refine h.congr rfl (fun _ => by rw [hphase]; rfl) fun _ hkill => ?_
      rw [hqueue] at hkill
      have hnot := mt hstop.mpr Bool.false_ne_true
      rw [not_or, Bool.not_eq_true] at hnot
      exact not_noKill_cons hkill hnot.1
  | @putsHanded hd stop hphase =>
    refine h.congr rfl (fun hgoing => ?_) fun _ => id
    rw [hphase]
    cases stop with
    | false => rfl
    | true => cases hgoing
  | leavesEvent hphase => exact h.congr rfl (fun hgoing => (by cases hgoing)) fun _ => id
  | examines hphase hresult => exact h.congr rfl (fun _ => by rw [hphase]; rfl) fun _ => id
  | examinesNot hphase hresult => exact h.congr rfl (fun hgoing => (by cases hgoing)) fun _ => id
  | @puts p ps ending now hphase =>
    cases p with
    | event e => exact h.congr rfl id fun _ hkill => not_noKill_append hkill _
    | alert a => exact ⟨h.puts, h.waits⟩
    | kill => exact ⟨h.puts, h.waits⟩
  | @fails w hawake =>
    cases w with
    | scan => exact ⟨fun ps hps => (by cases hps), fun hended => hended.elim nofun nofun⟩
    | event => exact h.congr rfl (fun hgoing => (by cases hgoing)) fun _ => id
    | _ => exact ⟨h.puts, h.waits⟩
  | _ => exact ⟨h.puts, h.waits⟩

/-- A message that ends `alert_task` waits for it. -/
def State.DataEnds (s : State) : Prop :=
  (∃ h ∈ s.fileDataQueue, h.message.flags.kill = true) ∨ s.running = false ∧ s.fileDataQueue ≠ []

theorem dataEnds_put {h : Handed} (hs : h.message.flags.kill = true ∨ s.running = false) :
    ({ s with fileDataQueue := s.fileDataQueue ++ [h] } : State).DataEnds := by
  rcases hs with hkill | hrunning
  · exact .inl ⟨h, List.mem_append_right _ (List.mem_singleton_self h), hkill⟩
  · exact .inr ⟨hrunning, List.append_ne_nil_of_right_ne_nil _ (List.cons_ne_nil h [])⟩

/-- `event_task` has such a message before it ends. -/
structure EventTells (s : State) : Prop where
  puts : ∀ h, s.eventTask = .putting h true → h.message.flags.kill = true ∨ s.running = false
  waits : s.eventTask = .ended → s.alertTask.alive = true → s.DataEnds

/-- What does not concern `event_task`. -/
theorem EventTells.congr (h : EventTells s) (htask : s'.eventTask = s.eventTask)
    (hrunning : s.running = false → s'.running = false)
    (halive : s'.alertTask.alive = true → s.alertTask.alive = true)
    (hqueue : s'.alertTask.alive = true → s.DataEnds → s'.DataEnds) : EventTells s' := by
  constructor
  · rw [htask]
    exact fun hd hphase => (h.puts hd hphase).imp_right hrunning
  · rw [htask]
    exact fun hended halive' => hqueue halive' (h.waits hended (halive halive'))

theorem dataEnds_append (h : s.DataEnds) (hd : Handed) :
    ({ s with fileDataQueue := s.fileDataQueue ++ [hd] } : State).DataEnds := by
  rcases h with ⟨y, hy, hkill⟩ | ⟨hrunning, hne⟩
  · exact .inl ⟨y, List.mem_append_left _ hy, hkill⟩
  · exact .inr ⟨hrunning, List.append_ne_nil_of_left_ne_nil hne _⟩

theorem EventTells.step {singlerun : Bool} (h : EventTells s)
    (hstep : step host cfg singlerun unitTest printTime s x = some s') : EventTells s' := by
  cases does_of_step hstep with
  | clears hmain => 
    refine h.congr rfl (fun _ => rfl) id fun _ hends => ?_
    exact hends.imp_right fun hrunning => ⟨rfl, hrunning.2⟩
  | takesEvent hphase hqueue hspecial hrunning =>
    exact ⟨fun hd hphase' => (by cases hphase'), fun hended => (by cases hended)⟩
  | @takesSpecial e rest stop hphase hqueue hspecial hstop =>
    refine ⟨fun hd hphase' => ?_, fun hended => (by cases hended)⟩
    cases hphase'
    exact hstop.mp rfl
  | @putsHanded hd stop hphase =>
    cases stop with
    | false => exact ⟨fun hd hphase' => (by cases hphase'), fun hended => (by cases hended)⟩
    | true => exact ⟨fun hd hphase' => (by cases hphase'), fun _ _ => dataEnds_put (h.puts hd hphase)⟩
  | leavesEvent hphase =>
    exact ⟨fun hd hphase' => (by cases hphase'), fun _ _ => dataEnds_put (.inl rfl)⟩
  | examines hphase hresult =>
    exact ⟨fun hd hphase' => (by cases hphase'), fun hended => (by cases hended)⟩
  | examinesNot hphase hresult =>
    exact ⟨fun hd hphase' => (by cases hphase'), fun hended => (by cases hended)⟩
  | @putsRealtime hd stop now hphase =>
    exact h.congr rfl id id fun _ hends => dataEnds_append hends hd
  | leavesRtevent now hphase => exact h.congr rfl id id fun _ hends => dataEnds_append hends _
  | opens now hphase => exact h.congr rfl id (fun _ => by rw [hphase]; rfl) fun _ => id
  | takesKill now hphase hqueue hkill =>
    exact h.congr rfl id (fun halive => (by cases halive)) fun halive => (by cases halive)
  | @handles hd rest t ending now hphase hqueue hkill hrunning hresult =>
    refine h.congr rfl id (fun _ => by rw [hphase]; rfl) fun _ hends => ?_
    rcases hends with ⟨y, hy, hkilled⟩ | ⟨hstopped, -⟩
    · rw [hqueue] at hy
      rcases List.mem_cons.mp hy with rfl | hy
      · rw [hkill] at hkilled
        cases hkilled
      · exact .inl ⟨y, hy, hkilled⟩
    · rw [hrunning] at hstopped
      cases hstopped
  | @puts p ps ending now hphase =>
    cases p <;> exact h.congr rfl id (fun halive => by rw [hphase]; exact halive) fun _ => id
  | goesOn now hphase => exact h.congr rfl id (fun _ => by rw [hphase]; rfl) fun _ => id
  | returns now hphase =>
    exact h.congr rfl id (fun halive => (by cases halive)) fun halive => (by cases halive)
  | throws now hphase =>
    exact h.congr rfl id (fun halive => (by cases halive)) fun halive => (by cases halive)
  | leavesAlert now hphase =>
    exact h.congr rfl id (fun halive => (by cases halive)) fun halive => (by cases halive)
  | @fails w hawake =>
    cases w with
    | event => exact ⟨fun hd hphase' => (by cases hphase'), fun hended => (by cases hended)⟩
    | alert => exact h.congr rfl id (fun halive => (by cases halive)) fun halive => (by cases halive)
    | _ => exact ⟨h.puts, h.waits⟩
  | _ => exact ⟨h.puts, h.waits⟩

/-- `alert_task` has told `output_task` before it ends. -/
structure AlertTells (s : State) : Prop where
  puts : ∀ ps, s.alertTask = .putting ps .returns → ps = [.kill] ∨ ps = [] ∧ s.Told
  ended : s.alertTask = .ended → s.Told
  busy : s.outputTask.Busy

theorem AlertTells.step {singlerun : Bool} (h : AlertTells s)
    (hstep : step host cfg singlerun unitTest printTime s x = some s') : AlertTells s' := by
  have hbusy := busy_outputStep h.busy hstep
  have htold : s.Told → s'.Told := fun htold => told_step htold hstep
  have hsame : s'.alertTask = s.alertTask → AlertTells s' := by
    intro htask
    refine ⟨?_, ?_, hbusy⟩
    · rw [htask]
      exact fun ps hps => (h.puts ps hps).imp_right (And.imp_right htold)
    · rw [htask]
      exact fun hended => htold (h.ended hended)
  cases does_of_step hstep with
  | opens | goesOn => exact ⟨fun ps hps => (by cases hps), fun hended => (by cases hended), hbusy⟩
  | takesKill now hphase hqueue hkill =>
    refine ⟨fun ps hps => ?_, fun hended => (by cases hended), hbusy⟩
    cases hps
    exact .inl rfl
  | handles now hphase hqueue hkill hrunning hresult =>
    refine ⟨fun ps hps => ?_, fun hended => (by cases hended), hbusy⟩
    rcases hresult with ⟨rfl, -⟩ | ⟨rfl, -⟩ <;> cases hps
  | @puts p ps ending now hphase =>
    refine ⟨fun qs hqs => ?_, fun hended => (by cases p <;> cases hended), hbusy⟩
    obtain ⟨rfl, rfl⟩ : ps = qs ∧ ending = .returns := by cases p <;> (cases hqs; exact ⟨rfl, rfl⟩)
    rcases h.puts _ hphase with heq | ⟨heq, -⟩
    · cases heq
      exact .inr ⟨rfl, told_putKill s⟩
    · cases heq
  | returns now hphase =>
    refine ⟨fun ps hps => (by cases hps), fun _ => ?_, hbusy⟩
    rcases h.puts _ hphase with heq | ⟨-, htold⟩
    · cases heq
    · exact htold
  | throws now hphase =>
    exact ⟨fun ps hps => (by cases hps), fun hended => (by cases hended), hbusy⟩
  | leavesAlert now hphase => exact ⟨fun ps hps => (by cases hps), fun _ => told_putKill s, hbusy⟩
  | @fails w hawake =>
    cases w with
    | alert => exact ⟨fun ps hps => (by cases hps), fun hended => (by cases hended), hbusy⟩
    | _ => exact hsame rfl
  | _ => exact hsame rfl

end Tasks

/-- All that is known of a run that is stopped. -/
structure StopInv (s : State) : Prop where
  cleared : Cleared s
  scanAsked : ScanAsked s
  rteventAsked : RteventAsked s
  scan : ScanTells s
  event : EventTells s
  alert : AlertTells s

theorem StopInv.step (h : StopInv s)
    (hstep : step host cfg false unitTest printTime s x = some s') : StopInv s' :=
  ⟨h.cleared.step hstep, h.scanAsked.step hstep, h.rteventAsked.step hstep, h.scan.step hstep,
    h.event.step hstep, h.alert.step hstep⟩

theorem StopInv.initial : StopInv (initial db diffs) where
  cleared := ⟨rfl, fun hs => (by cases hs), fun _ hs => (by cases hs)⟩
  scanAsked := fun hasked => (by cases hasked)
  rteventAsked := fun hasked => (by cases hasked)
  scan := ⟨fun _ hps => (by cases hps), fun hended => hended.elim nofun nofun⟩
  event := ⟨fun _ hps => (by cases hps), fun hended => (by cases hended)⟩
  alert := ⟨fun _ hps => (by cases hps), fun hended => (by cases hended),
    fun hphase => hphase.elim nofun nofun⟩

section Progress

variable (hquiet : Quiescent host cfg false unitTest printTime s) (h : StopInv s)
  (hrunning : s.running = false)

include hquiet hrunning

theorem Quiescent.rteventTask :
    s.rteventTask = .ended ∨ (s.rteventTask = .loop ∧ s.rteventQueue = []) := by
  cases hphase : s.rteventTask with
  | ended => exact .inl rfl
  | loop =>
    refine .inr ⟨rfl, ?_⟩
    cases hqueue : s.rteventQueue with
    | nil => rfl
    | cons e rest =>
      have hsame := hquiet (.rtevent 0) { s with rteventTask := .putting killHanded true } (by simp)
        (by simp [step, rteventStep, hphase, hqueue, hrunning])
      simpa [hphase] using congrArg State.rteventTask hsame
  | examining path flags =>
    have hsame := hquiet (.examineRealtime missingAnswers) _ (by simp)
      (by simp only [step, examineRealtimeStep, hphase]; rfl)
    have hnext := congrArg State.rteventTask hsame
    simp only [hphase, examination] at hnext
    split at hnext <;> cases hnext
  | putting hd stop =>
    have hsame := hquiet (.rtevent 0) _ (by simp)
      (by simp only [step, rteventStep, putHanded, hphase]; rfl)
    simpa using congrArg (fun u => u.fileDataQueue.length) hsame
  | leaving =>
    have hsame := hquiet (.rtevent 0) _ (by simp)
      (by simp only [step, rteventStep, putHanded, hphase]; rfl)
    simpa [hphase] using congrArg State.rteventTask hsame

theorem Quiescent.watchers : s.watchers = 0 := by
  by_contra hwatch
  have hsame := hquiet .watchReturns { s with watchers := s.watchers - 1 } (by simp)
    (by simp [step, hrunning, Nat.pos_of_ne_zero hwatch])
  have hnext : s.watchers - 1 = s.watchers := congrArg State.watchers hsame
  omega

include h

/-- The main thread joins the others, and waits for one of them at most. -/
theorem Quiescent.late_main : s.main = .joining [] ∨
    ∃ w ws, s.main = .joining (w :: ws) ∧ s.hasEnded w = false := by
  have hlate := h.cleared.late
  rw [hrunning] at hlate
  cases hphase : s.main with
  | killingScan =>
    have hsame := hquiet .main _ (by simp) (by simp only [step, mainStep, hphase]; rfl)
    simpa using congrArg (fun u => u.scanQueue.length) hsame
  | killingRtevent =>
    have hsame := hquiet .main _ (by simp) (by simp only [step, mainStep, hphase]; rfl)
    simpa using congrArg (fun u => u.rteventQueue.length) hsame
  | joining ws =>
    cases ws with
    | nil => exact .inl rfl
    | cons w ws =>
      refine .inr ⟨w, ws, rfl, ?_⟩
      by_contra hended
      rw [Bool.not_eq_false] at hended
      have hsame := hquiet .main { s with main := .joining ws } (by simp)
        (by simp [step, mainStep, hphase, hended])
      have hnext : ws = w :: ws := by simpa [hphase] using congrArg State.main hsame
      simpa using congrArg List.length hnext
  | _ =>
    rw [hphase] at hlate
    cases hlate

/-- One after the other, the tasks have ended. -/
theorem Quiescent.stopped {ws : List Worker} (hmain : s.main = .joining ws) (w : Worker) :
    s.hasEnded w = true := by
  have hscan : s.scanTask = .ended := by
    refine hquiet.scanTask.resolve_right ?_
    rintro ⟨hphase, hqueue⟩
    apply h.scanAsked (by rw [hmain]; rfl) (by rw [hphase]; rfl)
    rw [hqueue]
    exact noKill_nil
  have hevent : s.eventTask = .ended := by
    refine hquiet.eventTask.resolve_right ?_
    rintro ⟨hphase, hqueue⟩
    apply h.scan.waits (.inl hscan) (by rw [hphase]; rfl)
    rw [hqueue]
    exact noKill_nil
  have hrtevent : s.rteventTask = .ended := by
    refine (hquiet.rteventTask hrunning).resolve_right ?_
    rintro ⟨hphase, hqueue⟩
    obtain ⟨e, he, -⟩ := h.rteventAsked (by rw [hmain]; rfl) (by rw [hphase]; rfl)
    rw [hqueue] at he
    cases he
  have halert : s.alertTask = .ended := by
    refine hquiet.alertTask.resolve_right ?_
    rintro ⟨hphase, hqueue⟩
    rcases h.event.waits hevent (by rw [hphase]; rfl) with ⟨hd, hmem, -⟩ | ⟨-, hne⟩
    · rw [hqueue] at hmem
      cases hmem
    · exact hne hqueue
  have houtput : s.outputTask.phase = .ended := by
    refine (hquiet.outputTask h.alert.busy).resolve_right ?_
    rintro ⟨hphase, hqueue⟩
    rcases h.alert.ended halert with hreads | ⟨m, hm, -⟩
    · simp [hphase, OutputTask.Phase.reads] at hreads
    · simp [hqueue] at hm
  cases w with
  | watch => simp [State.hasEnded, hquiet.watchers hrunning]
  | _ => simp [State.hasEnded, hscan, hevent, hrtevent, halert, houtput]

end Progress

section Runs

/-- Once `RUNNING` is false, the disk scanner comes to its end, whichever of its threads have ended
with exceptions: where no thread can take a step any more, all of them have been joined. -/
theorem stopped_returns (steps : List Step)
    (h : run host cfg false unitTest printTime db diffs steps = some s)
    (hrunning : s.running = false)
    (hquiet : Quiescent host cfg false unitTest printTime s) : s.main = .joining [] := by
  have hinv : StopInv s := runSteps_invariant (fun hu hx => hu.step hx) .initial h
  rcases hquiet.late_main hinv hrunning with hmain | ⟨w, ws, hmain, hended⟩
  · exact hmain
  · rw [hquiet.stopped hinv hrunning hmain w] at hended
    cases hended

/-- `event_task` ends with an exception, and later the daemon is stopped. -/
def stoppedRun : List Step :=
  [.main, .main, .main, .main, .scan [], .scan [], .fail .event, .event, .alert 0, .alert 0,
    .alert 0, .alert 0, .output (.take (.ok ())), .signal, .main, .main, .main, .scan [],
    .scan [], .scan [], .scan [], .rtevent 0, .rtevent 0, .main, .main, .main, .main, .main, .main]

theorem stopped_returns_stoppedRun : ∃ s,
    run rootHost emptyConfig false false toString ∅ ∅ stoppedRun = some s ∧
      s.failed = [.event] ∧ s.main = .joining [] := by
  have hrun : ∃ s, run rootHost emptyConfig false false toString ∅ ∅ stoppedRun = some s ∧
      s.failed = [.event] ∧ s.running = false ∧ Resting s :=
    ⟨_, rfl, rfl, rfl, .inr rfl, .inl rfl, .inl rfl, rfl, .inl rfl, rfl, rfl⟩
  obtain ⟨s, hs, hfailed, hstopped, hresting⟩ := hrun
  exact ⟨s, hs, hfailed, stopped_returns stoppedRun hs hstopped hresting.quiescent⟩

end Runs

end Ctguard.DiskscanDaemon
