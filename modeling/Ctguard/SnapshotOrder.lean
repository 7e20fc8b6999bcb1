import Ctguard.DiskscanDaemon
import Ctguard.ObjectChanges
import Ctguard.ScanCycle
import Ctguard.Simulation

/-!
# The order in which examinations reach `alert_task`

Two tasks examine objects and put the results into one queue, each in two steps. The results for
a path arrive in the order of the examinations as long as no task puts one while the other holds
an older one of that path. The last one that was handled then decides what the rows say, if the
waiting objects are counted among them and no deletion is missed.
-/

namespace Ctguard.AlertTask

variable {unitTest : Bool} {blockSize : ℕ} {s s' : State} {fd : FileData} {flags : Flags}

section Rows

theorem writtenRows_midScan (h : Waits s) (hs' : midScan s = .ok s') :
    writtenRows s' = writtenRows s := by
  obtain ⟨t, hwritten, rfl⟩ := midScan_eq_ok hs'
  have hwaits : Waits { s with events := s.events ++ phaseTwoEvents s.db, inScan := false } :=
    h.congr rfl rfl
  calc
    writtenRows (doUpdateQueue t) = writtenRows t := writtenRows_congr rfl (rows_doUpdateQueue t)
    _ = writtenRows { s with events := s.events ++ phaseTwoEvents s.db, inScan := false } :=
      writtenRows_doInsertSet hwaits hwritten
    _ = writtenRows s := writtenRows_congr rfl rfl

/-- A row has the object as it was found. -/
def UpToDate (fd : FileData) (v : Option Attributes) : Prop :=
  if fd.existing then ∃ a, v = some a ∧ Records a fd else v = none

theorem upToDate_some {a : Attributes} (hexists : fd.existing = true) (h : Records a fd) :
    UpToDate fd (some a) := by
  rw [UpToDate, if_pos hexists]
  exact ⟨a, rfl, h⟩

theorem upToDate_none (hexists : fd.existing = false) : UpToDate fd none := by
  simp [UpToDate, hexists]

/-- A message makes the row of its object up to date, unless it misses the deletion of one that
waits. Waiting objects are counted among the rows. -/
theorem Handled.writtenRows (h : Handled unitTest fd flags s s') (hpending : Pending s)
    (hbound : bindText fd.path = .ok ()) (hclean : fd.existing = true → Clean fd)
    (hnotices : fd.existing = false → s.insertSet[fd.path]? = none) :
    ∃ v, writtenRows s' = Function.update (writtenRows s) fd.path v ∧ UpToDate fd v := by
  have hunwaited : ∀ {row : Row}, s.db[fd.path]? = some row →
      AlertTask.writtenRows s fd.path = some row.attributes := by
    intro row hfound
    rw [AlertTask.writtenRows, hpending.waits.not_waiting_of_found hfound]
    simp [rows, hfound]
  have hkept : ∀ {row : Row}, s.db[fd.path]? = some row → fd.existing = true →
      changed unitTest row.attributes fd = false →
      ∃ v, AlertTask.writtenRows s = Function.update (AlertTask.writtenRows s) fd.path v ∧
        UpToDate fd v := by
    intro row hfound hexists hchanged
    refine ⟨some row.attributes, ?_, upToDate_some hexists (changed_eq_false_iff.mp hchanged)⟩
    rw [← hunwaited hfound, Function.update_eq_self]
  cases h with
  | absent hfound hexists =>
    have hnone : AlertTask.writtenRows s fd.path = none := by
      rw [AlertTask.writtenRows, hnotices hexists]
      simp [rows, hfound]
    refine ⟨none, ?_, upToDate_none hexists⟩
    rw [← hnone, Function.update_eq_self]
  | inserted hfound hexists hscan =>
    refine ⟨_, writtenRows_update ?_ rfl (rows_insert s.db fd.path _ true),
      upToDate_some hexists ((shows_attributes fd).records (hclean hexists))⟩
    rw [(hpending.idle hscan).1]
    simp
  | waits hfound hexists hscan =>
    exact ⟨_, writtenRows_insert rfl rfl,
      upToDate_some hexists ((shows_attributes fd).records (hclean hexists))⟩
  | batch hfound hexists hscan hwritten =>
    have hfree : rows s.db fd.path = none := by simp [rows, hfound]
    have hwaits : Waits { s with insertSet := s.insertSet.insert fd.path fd } :=
      hpending.waits.insert hbound hfree rfl rfl
    exact ⟨_, (writtenRows_doInsertSet hwaits hwritten).trans (writtenRows_insert rfl rfl),
      upToDate_some hexists ((shows_attributes fd).records (hclean hexists))⟩
  | deleted hfound hexists =>
    exact ⟨none, writtenRows_update (hpending.waits.not_waiting_of_found hfound) rfl
      (rows_erase s.db fd.path), upToDate_none hexists⟩
  | @updated row hfound hexists hchanged hstorable =>
    exact ⟨_, writtenRows_update (hpending.waits.not_waiting_of_found hfound) rfl
      (rows_insert s.db fd.path _ true),
      upToDate_some hexists ((shows_updated row.attributes fd).records (hclean hexists))⟩
  | unchanged hfound hexists hchanged hforce => exact hkept hfound hexists hchanged
  | confirmed hfound hexists hchanged hforce hscan =>
    have hsame : AlertTask.writtenRows { s with db := confirm s.db fd.path } =
        AlertTask.writtenRows s := writtenRows_congr rfl (rows_confirm s.db fd.path)
    rw [hsame]
    exact hkept hfound hexists hchanged
  | queued hfound hexists hchanged hforce hscan => exact hkept hfound hexists hchanged
  | confirmedAll hfound hexists hchanged hforce hscan =>
    have hsame : AlertTask.writtenRows
        (doUpdateQueue { s with updateQueue := s.updateQueue ++ [fd.path] }) =
          AlertTask.writtenRows s :=
      writtenRows_congr rfl (rows_doUpdateQueue _)
    rw [hsame]
    exact hkept hfound hexists hchanged

/-- A message without a result changes no row. -/
theorem writtenRows_handle_of_none {running : Bool} {m : Message} (hm : m.fileData = none)
    (hpending : Pending s) (h : handle unitTest blockSize running m s = .ok s') :
    writtenRows s' = writtenRows s := by
  rw [handle] at h
  split at h
  · cases h
    rfl
  split at h
  · cases h
    exact writtenRows_congr rfl (rows_startScan s)
  split at h
  · exact writtenRows_midScan hpending.waits h
  split at h
  · cases h
    rfl
  simp only [hm] at h
  cases h
  rfl

end Rows

end Ctguard.AlertTask

namespace Ctguard.DiskscanDaemon

open AlertTask

variable {host : FileHost} {cfg : DiskscanConfig} {singlerun unitTest : Bool} {printTime : ℤ → String}
  {s s' : State} {db : Table} {diffs : DiffTable} {steps : List Step}

section Order

/-- What `event_task` or `rtevent_task` is about to put. -/
def EventPhase.held : EventPhase → Option Handed
  | .putting h _ => some h
  | _ => none

/-- All that was put into the queue of `alert_task`, in this order. -/
def State.arrivals (s : State) : List Handed := s.dataTaken ++ s.fileDataQueue

theorem State.arrivals_put (s : State) (hd : Handed) :
    s.dataTaken ++ (s.fileDataQueue ++ [hd]) = s.arrivals ++ [hd] :=
  (List.append_assoc ..).symm

theorem State.arrivals_take {s : State} {hd : Handed} {rest : List Handed}
    (h : s.fileDataQueue = hd :: rest) : s.dataTaken ++ [hd] ++ rest = s.arrivals := by
  simp [State.arrivals, h]

/-- What a task puts in its next step. -/
def EventPhase.puts : EventPhase → List Handed
  | .putting h _ => [h]
  | .leaving => [killHanded]
  | _ => []

/-- What a step puts into the queue of `alert_task`. -/
def putBy (s : State) : Step → List Handed
  | .event => s.eventTask.puts
  | .rtevent _ => s.rteventTask.puts
  | _ => []

theorem arrivals_step {x : Step}
    (hstep : step host cfg singlerun unitTest printTime s x = some s') :
    s'.arrivals = s.arrivals ++ putBy s x := by
  cases does_of_step hstep with
  | takesEvent hphase | takesSpecial _ hphase => simp [putBy, hphase, EventPhase.puts, State.arrivals]
  | @putsHanded hd stop hphase =>
    rw [putBy, hphase]
    exact s.arrivals_put hd
  | leavesEvent hphase =>
    rw [putBy, hphase]
    exact s.arrivals_put killHanded
  | sleeps now hphase | seesKill now hphase | takesRtevent now hphase =>
    simp [putBy, hphase, EventPhase.puts, State.arrivals]
  | @putsRealtime hd stop now hphase =>
    rw [putBy, hphase]
    exact s.arrivals_put hd
  | leavesRtevent now hphase =>
    rw [putBy, hphase]
    exact s.arrivals_put killHanded
  | takesKill now hphase hqueue => simp [putBy, State.arrivals, hqueue]
  | handles now hphase hqueue => simp [putBy, State.arrivals, hqueue]
  | @puts p ps ending now hphase =>
    cases p <;> exact (List.append_nil _).symm
  | stops errors hx hmain =>
    rcases hx with rfl | rfl
    · exact (List.append_nil _).symm
    · exact (List.append_nil _).symm
  | @fails w hawake => cases w <;> exact (List.append_nil _).symm
  | _ => exact (List.append_nil _).symm

theorem arrivals_run (h : runSteps (step host cfg singlerun unitTest printTime) s steps = some s') :
    s'.arrivals = s.arrivals ++
      trace (step host cfg singlerun unitTest printTime) putBy s steps := by
  induction steps generalizing s with
  | nil =>
    obtain rfl := Option.some.inj h
    exact (List.append_nil _).symm
  | cons x xs ih =>
    obtain ⟨u, hu, hrun⟩ := Option.bind_eq_some_iff.mp h
    rw [ih hrun, arrivals_step hu, trace_cons hu, List.append_assoc]

/-- Both come from examinations of one path, the first from the earlier one. -/
def Precedes (h h' : Handed) : Prop :=
  ∃ n n' fd fd', h.number = some n ∧ h'.number = some n' ∧ h.message.fileData = some fd ∧
    h'.message.fileData = some fd' ∧ fd.path = fd'.path ∧ n < n'

/-- No result is put behind one of a later examination of its path. -/
def InOrder (hs : List Handed) : Prop := hs.Pairwise fun h h' => ¬ Precedes h' h

/-- A task does not put a result while the other one holds an older one of that path. -/
def PutsInTurn (s : State) (x : Step) : Prop :=
  (x = .event → ∀ h h', s.eventTask.held = some h → s.rteventTask.held = some h' →
    ¬ Precedes h' h) ∧
  ((∃ now, x = .rtevent now) → ∀ h h', s.rteventTask.held = some h → s.eventTask.held = some h' →
    ¬ Precedes h' h)

def State.holds (s : State) (h : Handed) : Prop :=
  s.eventTask.held = some h ∨ s.rteventTask.held = some h

/-- What a task holds comes behind all that has arrived. -/
structure OrderInv (s : State) : Prop where
  below : ∀ h, h ∈ s.arrivals ∨ s.holds h → ∀ n, h.number = some n → n < s.examined
  inOrder : InOrder s.arrivals
  fresh : ∀ h, s.holds h → ∀ h' ∈ s.arrivals, ¬ Precedes h h'

theorem not_precedes_of_number {h h' : Handed} (hnumber : h.number = none) :
    ¬ Precedes h h' ∧ ¬ Precedes h' h := by
  constructor
  · rintro ⟨n, n', fd, fd', hn, -⟩
    simp [hnumber] at hn
  · rintro ⟨n, n', fd, fd', -, hn, -⟩
    simp [hnumber] at hn

/-- An examination gives the greatest number so far. -/
theorem OrderInv.not_precedes (h : OrderInv s) {x h' : Handed} (hx : x.number = some s.examined)
    (hh' : h' ∈ s.arrivals) : ¬ Precedes x h' := by
  rintro ⟨n, n', fd, fd', hn, hn', -, -, -, hlt⟩
  have hbelow := h.below h' (.inl hh') n' hn'
  obtain rfl := Option.some.inj (hx.symm.trans hn)
  omega

/-- What does not add to the queue, and takes up at most the result of a new examination. -/
theorem OrderInv.mono (h : OrderInv s) (harrivals : s'.arrivals = s.arrivals)
    (hexamined : s.examined ≤ s'.examined)
    (hholds : ∀ x, s'.holds x → s.holds x ∨ x.number = none ∨
      (x.number = some s.examined ∧ s.examined < s'.examined)) : OrderInv s' where
  below x hx n hn := by
    rw [harrivals] at hx
    rcases hx with hx | hx
    · exact Nat.lt_of_lt_of_le (h.below x (.inl hx) n hn) hexamined
    · rcases hholds x hx with hx | hnone | ⟨hnew, hlt⟩
      · exact Nat.lt_of_lt_of_le (h.below x (.inr hx) n hn) hexamined
      · simp [hnone] at hn
      · obtain rfl := Option.some.inj (hnew.symm.trans hn)
        exact hlt
  inOrder := by
    rw [harrivals]
    exact h.inOrder
  fresh x hx h' hh' := by
    rw [harrivals] at hh'
    rcases hholds x hx with hx | hnone | ⟨hnew, -⟩
    · exact h.fresh x hx h' hh'
    · exact (not_precedes_of_number hnone).1
    · exact h.not_precedes hnew hh'

theorem InOrder.concat {hs : List Handed} (h : InOrder hs) {x : Handed}
    (hx : ∀ h' ∈ hs, ¬ Precedes x h') : InOrder (hs ++ [x]) := by
  rw [InOrder, List.pairwise_append]
  refine ⟨h, List.pairwise_singleton _ _, ?_⟩
  intro h' hh' y hy
  rw [List.mem_singleton.mp hy]
  exact hx h' hh'

/-- A put by one of the tasks. -/
theorem OrderInv.put (h : OrderInv s) {x : Handed} (hx : s.holds x ∨ x.number = none)
    (harrivals : s'.arrivals = s.arrivals ++ [x]) (hexamined : s'.examined = s.examined)
    (hholds : ∀ y, s'.holds y → s.holds y ∧ ¬ Precedes y x) : OrderInv s' where
  below y hy n hn := by
    rw [harrivals, List.mem_append, List.mem_singleton] at hy
    rw [hexamined]
    rcases hy with (hy | rfl) | hy
    · exact h.below y (.inl hy) n hn
    · rcases hx with hx | hnone
      · exact h.below y (.inr hx) n hn
      · simp [hnone] at hn
    · exact h.below y (.inr (hholds y hy).1) n hn
  inOrder := by
    rw [harrivals]
    apply h.inOrder.concat
    rcases hx with hx | hnone
    · exact h.fresh x hx
    · exact fun h' _ => (not_precedes_of_number hnone).1
  fresh y hy h' hh' := by
    rw [harrivals, List.mem_append, List.mem_singleton] at hh'
    rcases hh' with hh' | rfl
    · exact h.fresh y (hholds y hy).1 h' hh'
    · exact (hholds y hy).2

theorem OrderInv.step (h : OrderInv s) {x : Step} (hturn : PutsInTurn s x)
    (hstep : step host cfg singlerun unitTest printTime s x = some s') : OrderInv s' := by
  have hkeeps : s'.arrivals = s.arrivals → s.examined ≤ s'.examined →
      (s'.eventTask = s.eventTask ∨ s'.eventTask.held = none) →
      (s'.rteventTask = s.rteventTask ∨ s'.rteventTask.held = none) → OrderInv s' := by
    intro harrivals hexamined hevent hrtevent
    refine h.mono harrivals hexamined ?_
    rintro y (hy | hy)
    · rcases hevent with heq | hnone
      · exact .inl (.inl (heq ▸ hy))
      · simp [hnone] at hy
    · rcases hrtevent with heq | hnone
      · exact .inl (.inr (heq ▸ hy))
      · simp [hnone] at hy
  cases does_of_step hstep with
  | watches hmain hsingle => exact hkeeps rfl (Nat.le_refl _) (.inl rfl) (.inr rfl)
  | takesEvent hphase hqueue hspecial hrunning =>
    exact hkeeps rfl (Nat.le_refl _) (.inr rfl) (.inl rfl)
  | takesSpecial stop hphase hqueue hspecial hstop =>
    refine h.mono rfl (Nat.le_refl _) ?_
    rintro y (hy | hy)
    · obtain rfl := Option.some.inj hy
      exact .inr (.inl rfl)
    · exact .inl (.inr hy)
  | @putsHanded hd stop hphase =>
    have hheld : s.eventTask.held = some hd := by
      rw [hphase]
      rfl
    refine h.put (.inl (.inl hheld)) (List.append_assoc _ _ _).symm rfl ?_
    rintro y (hy | hy)
    · cases stop <;> cases hy
    · exact ⟨.inr hy, hturn.1 rfl hd y hheld hy⟩
  | leavesEvent hphase =>
    refine h.put (.inr rfl) (List.append_assoc _ _ _).symm rfl ?_
    rintro y (hy | hy)
    · cases hy
    · exact ⟨.inr hy, (not_precedes_of_number rfl).2⟩
  | examines hphase hresult =>
    refine h.mono rfl (Nat.le_succ _) ?_
    rintro y (hy | hy)
    · obtain rfl := Option.some.inj hy
      exact .inr (.inr ⟨rfl, Nat.lt_succ_self _⟩)
    · exact .inl (.inr hy)
  | examinesNot hphase hresult => exact hkeeps rfl (Nat.le_refl _) (.inr rfl) (.inl rfl)
  | seesKill now hphase hqueue hkill =>
    refine h.mono rfl (Nat.le_refl _) ?_
    rintro y (hy | hy)
    · exact .inl (.inl hy)
    · obtain rfl := Option.some.inj hy
      exact .inr (.inl rfl)
  | takesRtevent now hphase hqueue hkill hrunning =>
    exact hkeeps rfl (Nat.le_refl _) (.inl rfl) (.inr rfl)
  | @putsRealtime hd stop now hphase =>
    have hheld : s.rteventTask.held = some hd := by
      rw [hphase]
      rfl
    refine h.put (.inl (.inr hheld)) (List.append_assoc _ _ _).symm rfl ?_
    rintro y (hy | hy)
    · exact ⟨.inl hy, hturn.2 ⟨now, rfl⟩ hd y hheld hy⟩
    · cases stop <;> cases hy
  | leavesRtevent now hphase =>
    refine h.put (.inr rfl) (List.append_assoc _ _ _).symm rfl ?_
    rintro y (hy | hy)
    · exact ⟨.inl hy, (not_precedes_of_number rfl).2⟩
    · cases hy
  | examinesRealtime hphase hresult =>
    refine h.mono rfl (Nat.le_succ _) ?_
    rintro y (hy | hy)
    · exact .inl (.inl hy)
    · obtain rfl := Option.some.inj hy
      exact .inr (.inr ⟨rfl, Nat.lt_succ_self _⟩)
  | examinesRealtimeNot hphase hresult => exact hkeeps rfl (Nat.le_refl _) (.inl rfl) (.inr rfl)
  | takesKill now hphase hqueue hkill =>
    refine hkeeps ?_ (Nat.le_refl _) (.inl rfl) (.inl rfl)
    simp [State.arrivals, hqueue]
  | handles now hphase hqueue hkill hrunning hresult =>
    refine hkeeps ?_ (Nat.le_refl _) (.inl rfl) (.inl rfl)
    simp [State.arrivals, hqueue]
  | @puts p ps ending now hphase =>
    cases p <;> exact hkeeps rfl (Nat.le_refl _) (.inl rfl) (.inl rfl)
  | @fails w hawake =>
    cases w with
    | event => exact hkeeps rfl (Nat.le_refl _) (.inr rfl) (.inl rfl)
    | rtevent => exact hkeeps rfl (Nat.le_refl _) (.inl rfl) (.inr rfl)
    | _ => exact hkeeps rfl (Nat.le_refl _) (.inl rfl) (.inl rfl)
  | _ => exact hkeeps rfl (Nat.le_refl _) (.inl rfl) (.inl rfl)

end Order

section Results

/-- The last of the results for a path. -/
def lastResult (hs : List Handed) (path : String) : Option FileData :=
  ((hs.filterMap (·.message.fileData)).filter (·.path = path)).getLast?

theorem lastResult_concat_none {hs : List Handed} {h : Handed} (hnone : h.message.fileData = none) :
    lastResult (hs ++ [h]) = lastResult hs := by
  funext path
  simp [lastResult, hnone]

theorem lastResult_concat_some {hs : List Handed} {h : Handed} {fd : FileData}
    (hfd : h.message.fileData = some fd) :
    lastResult (hs ++ [h]) = Function.update (lastResult hs) fd.path (some fd) := by
  funext path
  by_cases hpath : fd.path = path
  · subst hpath
    simp [lastResult, hfd]
  · simp [lastResult, hfd, hpath, Function.update_of_ne (Ne.symm hpath)]

/-- A result comes without a marker, and its texts are read back as they were written. -/
def Sound (h : Handed) : Prop :=
  ∀ fd, h.message.fileData = some fd →
    h.message.flags.special = false ∧ (fd.existing = true → Clean fd)

theorem sound_of_none {h : Handed} (hnone : h.message.fileData = none) : Sound h := by
  intro fd hfd
  simp [hnone] at hfd

theorem construct_sound {answers : Answers} {path : String} {flags : Flags} {n : Option ℕ}
    {fileData : Option FileData} {diffs : DiffTable} (hplain : flags.special = false)
    (h : construct host cfg.maxDiffSize answers s.diffs path flags.chkContent flags.chkDiff =
      .ok (fileData, diffs)) :
    Sound { number := n, message := { fileData := fileData, flags := flags } } := by
  intro fd hfd
  obtain rfl : fileData = some fd := hfd
  refine ⟨hplain, ?_⟩
  intro hexists
  cases hstat : answers.lstat with
  | some stat => exact (construct_examined hstat h).clean
  | none =>
    -- what is not there is no existing object
    rw [construct] at h
    split at h
    · cases h
    simp only [hstat] at h
    cases h
    cases hexists

/-- The event is handed to an examination only if it is no marker. -/
def EventPhase.Plain (phase : EventPhase) : Prop :=
  ∀ path flags, phase = .examining path flags → flags.special = false

/-- Only the event of the end is a marker among those of the watches. -/
def PlainEvents (queue : List (ℤ × String × Flags)) : Prop :=
  ∀ e ∈ queue, e.2.2.kill = false → e.2.2.special = false

/-- Where the results come from. -/
structure Sources (s : State) : Prop where
  sound : ∀ h, h ∈ s.arrivals ∨ s.holds h → Sound h
  event : s.eventTask.Plain
  rtevent : s.rteventTask.Plain
  queue : PlainEvents s.rteventQueue

theorem plain_of_not_examining {phase : EventPhase}
    (h : ∀ path flags, phase ≠ .examining path flags) : phase.Plain :=
  fun path flags heq => absurd heq (h path flags)

/-- What takes up nothing but sound results. -/
theorem Sources.mono (h : Sources s)
    (hsound : ∀ x, x ∈ s'.arrivals ∨ s'.holds x → x ∈ s.arrivals ∨ s.holds x ∨ Sound x)
    (hevent : s'.eventTask = s.eventTask ∨ s'.eventTask.Plain)
    (hrtevent : s'.rteventTask = s.rteventTask ∨ s'.rteventTask.Plain)
    (hqueue : PlainEvents s'.rteventQueue) : Sources s' where
  sound x hx := by
    rcases hsound x hx with hx | hx | hx
    · exact h.sound x (.inl hx)
    · exact h.sound x (.inr hx)
    · exact hx
  event := by
    rcases hevent with heq | hplain
    · rw [heq]
      exact h.event
    · exact hplain
  rtevent := by
    rcases hrtevent with heq | hplain
    · rw [heq]
      exact h.rtevent
    · exact hplain
  queue := hqueue

theorem Sources.step (h : Sources s) {x : Step}
    (hstep : step host cfg singlerun unitTest printTime s x = some s') : Sources s' := by
  have hkeeps : s'.arrivals = s.arrivals → s'.rteventQueue = s.rteventQueue →
      (s'.eventTask = s.eventTask ∨ s'.eventTask.held = none ∧ s'.eventTask.Plain) →
      (s'.rteventTask = s.rteventTask ∨ s'.rteventTask.held = none ∧ s'.rteventTask.Plain) →
      Sources s' := by
    intro harrivals hqueue hevent hrtevent
    refine h.mono ?_ (hevent.imp_right And.right) (hrtevent.imp_right And.right)
      (hqueue ▸ h.queue)
    rintro y (hy | hy | hy)
    · exact .inl (harrivals ▸ hy)
    · rcases hevent with heq | ⟨hnone, -⟩
      · exact .inr (.inl (.inl (heq ▸ hy)))
      · simp [hnone] at hy
    · rcases hrtevent with heq | ⟨hnone, -⟩
      · exact .inr (.inl (.inr (heq ▸ hy)))
      · simp [hnone] at hy
  cases does_of_step hstep with
  | watches hmain hsingle =>
    exact hkeeps rfl rfl (.inl rfl) (.inr ⟨rfl, plain_of_not_examining (by simp [startThreads])⟩)
  | killsRtevent hmain =>
    refine h.mono (fun y hy => hy.imp_right .inl) (.inl rfl) (.inl rfl) ?_
    intro e he hkill
    rcases List.mem_append.mp he with he | he
    · exact h.queue e he hkill
    · rw [List.mem_singleton.mp he] at hkill
      cases hkill
  | @takesEvent e rest hphase hqueue hspecial hrunning =>
    refine hkeeps rfl rfl (.inr ⟨rfl, ?_⟩) (.inl rfl)
    intro path flags heq
    cases heq
    exact hspecial
  | takesSpecial stop hphase hqueue hspecial hstop =>
    refine h.mono ?_ (.inr (plain_of_not_examining (by simp))) (.inl rfl) h.queue
    rintro y (hy | hy | hy)
    · exact .inl hy
    · obtain rfl := Option.some.inj hy
      exact .inr (.inr (sound_of_none rfl))
    · exact .inr (.inl (.inr hy))
  | @putsHanded hd stop hphase =>
    have hheld : s.eventTask.held = some hd := by
      rw [hphase]
      rfl
    refine h.mono ?_ (.inr (plain_of_not_examining (by cases stop <;> simp))) (.inl rfl) h.queue
    rintro y (hy | hy | hy)
    · rw [State.arrivals, ← List.append_assoc, List.mem_append, List.mem_singleton] at hy
      rcases hy with hy | rfl
      · exact .inl hy
      · exact .inr (.inl (.inl hheld))
    · cases stop <;> cases hy
    · exact .inr (.inl (.inr hy))
  | leavesEvent hphase =>
    refine h.mono ?_ (.inr (plain_of_not_examining (by simp))) (.inl rfl) h.queue
    rintro y (hy | hy | hy)
    · rw [State.arrivals, ← List.append_assoc, List.mem_append, List.mem_singleton] at hy
      rcases hy with hy | rfl
      · exact .inl hy
      · exact .inr (.inr (sound_of_none rfl))
    · cases hy
    · exact .inr (.inl (.inr hy))
  | examines hphase hresult =>
    refine h.mono ?_ (.inr (plain_of_not_examining (by simp))) (.inl rfl) h.queue
    rintro y (hy | hy | hy)
    · exact .inl hy
    · obtain rfl := Option.some.inj hy
      exact .inr (.inr (construct_sound (h.event _ _ hphase) hresult))
    · exact .inr (.inl (.inr hy))
  | examinesNot hphase hresult =>
    exact hkeeps rfl rfl (.inr ⟨rfl, plain_of_not_examining (by simp [State.catchAll])⟩) (.inl rfl)
  | seesKill now hphase hqueue hkill =>
    refine h.mono ?_ (.inl rfl) (.inr (plain_of_not_examining (by simp))) h.queue
    rintro y (hy | hy | hy)
    · exact .inl hy
    · exact .inr (.inl (.inl hy))
    · obtain rfl := Option.some.inj hy
      exact .inr (.inr (sound_of_none rfl))
  | @takesRtevent time e rest now hphase hqueue hkill hrunning =>
    refine h.mono ?_ (.inl rfl) (.inr ?_) ?_
    · rintro y (hy | hy | hy)
      · exact .inl hy
      · exact .inr (.inl (.inl hy))
      · cases hy
    · intro path flags heq
      cases heq
      exact h.queue (time, e) (hqueue ▸ List.mem_cons_self) hkill
    · intro e' he'
      exact h.queue e' (hqueue ▸ List.mem_cons_of_mem _ he')
  | @putsRealtime hd stop now hphase =>
    have hheld : s.rteventTask.held = some hd := by
      rw [hphase]
      rfl
    refine h.mono ?_ (.inl rfl) (.inr (plain_of_not_examining (by cases stop <;> simp))) h.queue
    rintro y (hy | hy | hy)
    · rw [State.arrivals, ← List.append_assoc, List.mem_append, List.mem_singleton] at hy
      rcases hy with hy | rfl
      · exact .inl hy
      · exact .inr (.inl (.inr hheld))
    · exact .inr (.inl (.inl hy))
    · cases stop <;> cases hy
  | leavesRtevent now hphase =>
    refine h.mono ?_ (.inl rfl) (.inr (plain_of_not_examining (by simp))) h.queue
    rintro y (hy | hy | hy)
    · rw [State.arrivals, ← List.append_assoc, List.mem_append, List.mem_singleton] at hy
      rcases hy with hy | rfl
      · exact .inl hy
      · exact .inr (.inr (sound_of_none rfl))
    · exact .inr (.inl (.inl hy))
    · cases hy
  | examinesRealtime hphase hresult =>
    refine h.mono ?_ (.inl rfl) (.inr (plain_of_not_examining (by simp))) h.queue
    rintro y (hy | hy | hy)
    · exact .inl hy
    · exact .inr (.inl (.inl hy))
    · obtain rfl := Option.some.inj hy
      exact .inr (.inr (construct_sound (h.rtevent _ _ hphase) hresult))
  | examinesRealtimeNot hphase hresult =>
    exact hkeeps rfl rfl (.inl rfl) (.inr ⟨rfl, plain_of_not_examining (by simp [State.catchAll])⟩)
  | notifies hwatch =>
    refine h.mono (fun y hy => hy.imp_right .inl) (.inl rfl) (.inl rfl) ?_
    intro e he hkill
    rcases List.mem_append.mp he with he | he
    · exact h.queue e he hkill
    · rw [List.mem_singleton.mp he]
      rfl
  | takesKill now hphase hqueue hkill =>
    refine hkeeps ?_ rfl (.inl rfl) (.inl rfl)
    simp [State.arrivals, hqueue]
  | handles now hphase hqueue hkill hrunning hresult =>
    refine hkeeps ?_ rfl (.inl rfl) (.inl rfl)
    simp [State.arrivals, hqueue]
  | @puts p ps ending now hphase =>
    cases p <;> exact hkeeps rfl rfl (.inl rfl) (.inl rfl)
  | @fails w hawake =>
    have hplain : EventPhase.leaving.Plain := plain_of_not_examining (by simp)
    cases w with
    | event => exact hkeeps rfl rfl (.inr ⟨rfl, hplain⟩) (.inl rfl)
    | rtevent => exact hkeeps rfl rfl (.inl rfl) (.inr ⟨rfl, hplain⟩)
    | _ => exact hkeeps rfl rfl (.inl rfl) (.inl rfl)
  | _ => exact hkeeps rfl rfl (.inl rfl) (.inl rfl)

/-- A result that misses an object is not handled while the object waits for its row. -/
def NoticesDeletions (s : State) (x : Step) : Prop :=
  ∀ now h rest fd, x = .alert now → s.alertTask = .loop → s.running = true →
    s.fileDataQueue = h :: rest → h.message.fileData = some fd → fd.existing = false →
      s.table.insertSet[fd.path]? = none

/-- `alert_task` is within its loop, or about to enter it. -/
def AlertPhase.alive : AlertPhase → Bool
  | .opening => true
  | .loop => true
  | .putting _ ending => ending = .goesOn
  | .leaving => false
  | .ended => false

/-- The rows agree with the last results, the waiting objects counted among them. -/
structure RowsFollow (s : State) : Prop where
  pending : Pending s.table
  upToDate : ∀ path fd, lastResult s.handled path = some fd →
    UpToDate fd (writtenRows s.table path)

structure RowInv (s : State) : Prop where
  sources : Sources s
  rows : s.alertTask.alive = true → RowsFollow s

/-- A handled message. -/
theorem RowsFollow.handle (h : RowsFollow s) {hd : Handed} {t : AlertTask.State}
    (hsound : Sound hd)
    (hnotices : ∀ fd, hd.message.fileData = some fd → fd.existing = false →
      s.table.insertSet[fd.path]? = none)
    (hresult : handle unitTest cfg.blockSize true hd.message s.fresh = .ok t)
    (htable : s'.table = t) (hhandled : s'.handled = s.handled ++ [hd]) : RowsFollow s' := by
  have hpending : Pending s.fresh := ⟨h.pending.waits.congr rfl rfl, h.pending.idle⟩
  have hfresh : writtenRows s.fresh = writtenRows s.table := writtenRows_congr rfl rfl
  refine ⟨htable ▸ hpending.handle hresult, ?_⟩
  rw [htable, hhandled]
  cases hfd : hd.message.fileData with
  | none =>
    rw [lastResult_concat_none hfd, writtenRows_handle_of_none hfd hpending hresult, hfresh]
    exact h.upToDate
  | some fd =>
    obtain ⟨hplain, hclean⟩ := hsound fd hfd
    rw [handle_of_not_special hplain, hfd] at hresult
    obtain ⟨hbound, hdone⟩ := handleFileData_handled hresult
    obtain ⟨v, hwritten, hv⟩ := hdone.writtenRows hpending hbound hclean (hnotices fd hfd)
    rw [lastResult_concat_some hfd, hwritten, hfresh]
    intro path fd' hlast
    by_cases hpath : path = fd.path
    · subst hpath
      rw [Function.update_self] at hlast ⊢
      rwa [← Option.some.inj hlast]
    · rw [Function.update_of_ne hpath] at hlast ⊢
      exact h.upToDate path fd' hlast

theorem RowsFollow.congr (h : RowsFollow s) (htable : s'.table = s.table)
    (hhandled : s'.handled = s.handled) : RowsFollow s' := by
  constructor
  · rw [htable]
    exact h.pending
  · rw [htable, hhandled]
    exact h.upToDate

theorem RowInv.step (h : RowInv s) {x : Step} (hnotices : NoticesDeletions s x)
    (hstep : step host cfg singlerun unitTest printTime s x = some s') : RowInv s' := by
  refine ⟨h.sources.step hstep, ?_⟩
  have hkeeps : s'.table = s.table → s'.handled = s.handled →
      (s'.alertTask.alive = true → s.alertTask.alive = true) →
      s'.alertTask.alive = true → RowsFollow s' :=
    fun htable hhandled halive hs' => (h.rows (halive hs')).congr htable hhandled
  cases does_of_step hstep with
  | opens now hphase => exact hkeeps rfl rfl fun _ => by simp [hphase, AlertPhase.alive]
  | takesKill now hphase hqueue hkill =>
    exact hkeeps rfl rfl fun _ => by simp [hphase, AlertPhase.alive]
  | @handles hd rest t ending now hphase hqueue hkill hrunning hresult =>
    intro halive
    rcases hresult with ⟨-, hresult⟩ | ⟨rfl, -⟩
    · have hmem : hd ∈ s.arrivals := by simp [State.arrivals, hqueue]
      refine (h.rows (by simp [hphase, AlertPhase.alive])).handle
        (h.sources.sound hd (.inl hmem)) ?_ hresult rfl rfl
      intro fd hfd hexists
      exact hnotices now hd rest fd rfl hphase hrunning hqueue hfd hexists
    · cases halive
  | @puts p ps ending now hphase =>
    have halive : s.alertTask.alive = decide (ending = .goesOn) := by rw [hphase]; rfl
    cases p <;> exact hkeeps rfl rfl fun hs' => halive.trans hs'
  | goesOn now hphase => exact hkeeps rfl rfl fun _ => by simp [hphase, AlertPhase.alive]
  | returns now hphase => exact hkeeps rfl rfl fun hs' => by cases hs'
  | throws now hphase => exact hkeeps rfl rfl fun hs' => by cases hs'
  | leavesAlert now hphase => exact hkeeps rfl rfl fun hs' => by cases hs'
  | @fails w hawake =>
    cases w with
    | alert => exact hkeeps rfl rfl fun hs' => by cases hs'
    | _ => exact hkeeps rfl rfl id
  | examinesNot hphase hresult => exact hkeeps rfl rfl id
  | examinesRealtimeNot hphase hresult => exact hkeeps rfl rfl id
  | _ => exact hkeeps rfl rfl id

end Results

section Runs

theorem OrderInv.initial : OrderInv (initial db diffs) := by
  constructor
  · rintro h (hh | hh | hh)
    all_goals cases hh
  · exact .nil
  · rintro h (hh | hh)
    all_goals cases hh

theorem RowInv.initial : RowInv (initial db diffs) := by
  constructor
  · constructor
    · rintro h (hh | hh | hh)
      all_goals cases hh
    · exact plain_of_not_examining (by simp [DiskscanDaemon.initial])
    · exact plain_of_not_examining (by simp [DiskscanDaemon.initial])
    · intro e he
      cases he
  · intro _
    refine ⟨⟨.of_empty rfl, fun _ => ⟨rfl, rfl⟩⟩, ?_⟩
    intro path fd h
    cases h

/-- As long as `alert_task` is there, it has handled all that it took from its queue. -/
theorem handled_eq_dataTaken
    (h : run host cfg singlerun unitTest printTime db diffs steps = some s) :
    s.alertTask.alive = true → s.handled = s.dataTaken := by
  refine runSteps_invariant (P := fun s => s.alertTask.alive = true → s.handled = s.dataTaken)
    ?_ (fun _ => rfl) h
  intro u x v hu hstep
  cases does_of_step hstep with
  | opens now hphase => exact fun _ => hu (by rw [hphase]; rfl)
  | takesKill now hphase hqueue hkill => exact fun halive => by cases halive
  | handles now hphase hqueue hkill hrunning hresult =>
    intro _
    show u.handled ++ _ = u.dataTaken ++ _
    rw [hu (by rw [hphase]; rfl)]
  | @puts p ps ending now hphase =>
    rw [hphase] at hu
    cases p <;> exact hu
  | goesOn now hphase => exact fun _ => hu (by rw [hphase]; rfl)
  | returns now hphase | throws now hphase | leavesAlert now hphase =>
    exact fun halive => by cases halive
  | @fails w hawake =>
    cases w with
    | alert => exact fun halive => by cases halive
    | _ => exact hu
  | _ => exact hu

/-- What the two tasks put into the queue of `alert_task` in a run, in this order. -/
def arrived (host : FileHost) (cfg : DiskscanConfig) (singlerun unitTest : Bool)
    (printTime : ℤ → String) (db : Table) (diffs : DiffTable) (steps : List Step) : List Handed :=
  trace (step host cfg singlerun unitTest printTime) putBy (initial db diffs) steps

theorem arrivals_eq_arrived
    (h : run host cfg singlerun unitTest printTime db diffs steps = some s) :
    s.arrivals = arrived host cfg singlerun unitTest printTime db diffs steps := arrivals_run h

/-- As long as the tasks put their results in turn, the results for a path arrive in the order of
the examinations. `alert_task` takes them in the order in which they arrive, and if no deletion is
missed, the rows show what the last one that was taken has found. -/
theorem snapshots_in_order (steps : List Step)
    (hturn : StepsMeet (step host cfg singlerun unitTest printTime) PutsInTurn
      (initial db diffs) steps)
    (h : run host cfg singlerun unitTest printTime db diffs steps = some s) :
    InOrder (arrived host cfg singlerun unitTest printTime db diffs steps) ∧
      ∃ taken, arrived host cfg singlerun unitTest printTime db diffs steps =
          taken ++ s.fileDataQueue ∧
        (StepsMeet (step host cfg singlerun unitTest printTime) NoticesDeletions
            (initial db diffs) steps →
          s.alertTask.alive = true → ∀ path fd, lastResult taken path = some fd →
            UpToDate fd (writtenRows s.table path) ∧
              (s.table.inScan = false → UpToDate fd (rows s.table.db path))) := by
  rw [← arrivals_eq_arrived h]
  refine ⟨(hturn.invariant (fun hu => hu.step) OrderInv.initial h).inOrder, s.dataTaken, rfl, ?_⟩
  intro hnotices halive path fd hlast
  have hrows := (hnotices.invariant (fun hu => hu.step) RowInv.initial h).rows halive
  rw [← handled_eq_dataTaken h halive] at hlast
  have hwritten := hrows.upToDate path fd hlast
  refine ⟨hwritten, ?_⟩
  intro hscan
  rwa [writtenRows_of_empty (hrows.pending.idle hscan).1] at hwritten

/-- In a single run, there is no other task. -/
theorem singleRun_putsInTurn (steps : List Step) :
    StepsMeet (step host cfg true unitTest printTime) PutsInTurn (initial db diffs) steps := by
  intro pre x post s _ hrun
  have hnone : s.rteventTask = .ended := by
    refine runSteps_invariant (P := fun s => s.rteventTask = .ended) ?_ rfl hrun
    intro u x v hu hstep
    cases does_of_step hstep with
    | watches hmain hsingle => cases hsingle
    | sleeps now hphase => simp [hu] at hphase
    | seesKill now hphase hqueue hkill => simp [hu] at hphase
    | takesRtevent now hphase hqueue hkill hrunning => simp [hu] at hphase
    | putsRealtime now hphase => simp [hu] at hphase
    | leavesRtevent now hphase => simp [hu] at hphase
    | examinesRealtime hphase hresult => simp [hu] at hphase
    | examinesRealtimeNot hphase hresult => simp [hu] at hphase
    | @puts p ps ending now hphase => cases p <;> exact hu
    | @fails w hawake =>
      cases w with
      | rtevent => simp [State.awake, EventPhase.awake, hu] at hawake
      | _ => exact hu
    | _ => exact hu
  have hheld : s.rteventTask.held = none := by
    rw [hnone]
    rfl
  constructor
  · rintro - h h' - hh'
    simp [hheld] at hh'
  · rintro - h h' hh
    simp [hheld] at hh

/-- A directory is scanned, and watched in a daemon. -/
def watchedConfig : DiskscanConfig where
  maxDiffSize := 0
  watches := [{ path := "/w", recursive := true, realtime := true, checkDiff := false }]

def missingAnswers : Answers := { answersOf (ownedBy 0 33188 1) with lstat := none }

/-- The scan finds an object, and `event_task` takes its event. -/
def findsObject : List Step :=
  [.main, .main, .main, .main, .main, .scan [], .scan [], .scan [], .scan ["a"], .scan [],
    .event, .event, .event]

/-- Both tasks examine one object, which gets other rights in between, and `alert_task` handles
both results and writes the object at the end of the first phase of the scan. -/
def examinedTwice : List Step :=
  findsObject ++ [.examine (answersOf (ownedBy 0 33188 1)), .event, .notify 0 "/w/a" true false,
    .rtevent 100, .examineRealtime (answersOf (ownedBy 0 33261 2)), .rtevent 100, .scan [],
    .scan [], .scan [], .event, .event, .alert 0, .alert 0, .alert 0, .alert 0, .alert 0, .alert 0,
    .alert 0, .alert 0, .alert 0, .alert 0]

theorem examinedTwice_putsInTurn :
    StepsMeet (step rootHost watchedConfig false false toString) PutsInTurn (initial ∅ ∅)
      examinedTwice := by
  refine stepsMeet_of_checkSteps
    (c := fun s _ => !(s.eventTask.held.isSome && s.rteventTask.held.isSome)) ?_ (by decide +kernel)
  intro s x hx
  constructor
  · intro _ h h' hh hh'
    simp [hh, hh'] at hx
  · intro _ h h' hh hh'
    simp [hh, hh'] at hx

theorem examinedTwice_noticesDeletions :
    StepsMeet (step rootHost watchedConfig false false toString) NoticesDeletions (initial ∅ ∅)
      examinedTwice := by
  refine stepsMeet_of_checkSteps
    (c := fun s _ => s.fileDataQueue.all fun h => h.message.fileData.all (·.existing)) ?_
    (by decide +kernel)
  intro s x hx now h rest fd _ _ _ hfront hfd hgone
  simp [hfront, hfd, hgone] at hx

theorem snapshots_in_order_examinedTwice : ∃ s a,
    run rootHost watchedConfig false false toString ∅ ∅ examinedTwice = some s ∧
      (arrived rootHost watchedConfig false false toString ∅ ∅ examinedTwice).map Handed.number =
        [none, some 0, some 1, none] ∧
      InOrder (arrived rootHost watchedConfig false false toString ∅ ∅ examinedTwice) ∧
      rows s.table.db "/w/a" = some a ∧ a.mode = 33261 := by
  have hview : (run rootHost watchedConfig false false toString ∅ ∅ examinedTwice).map
      (fun s => (s.alertTask.alive, s.table.inScan, s.fileDataQueue.isEmpty)) =
        some (true, false, true) := by decide +kernel
  obtain ⟨s, hs, hview⟩ := Option.map_eq_some_iff.mp hview
  simp only [Prod.mk.injEq, List.isEmpty_iff] at hview
  obtain ⟨halive, hscan, hqueue⟩ := hview
  obtain ⟨horder, taken, harrived, hrows⟩ :=
    snapshots_in_order examinedTwice examinedTwice_putsInTurn hs
  rw [hqueue, List.append_nil] at harrived
  have hlast : (lastResult (arrived rootHost watchedConfig false false toString ∅ ∅ examinedTwice)
      "/w/a").map (fun fd => (fd.existing, fd.mode)) = some (true, 33261) := by decide +kernel
  rw [harrived] at hlast
  obtain ⟨fd, hfd, hfound⟩ := Option.map_eq_some_iff.mp hlast
  simp only [Prod.mk.injEq] at hfound
  have hrow := (hrows examinedTwice_noticesDeletions halive "/w/a" fd hfd).2 hscan
  rw [UpToDate, if_pos hfound.1] at hrow
  obtain ⟨a, hstored, hrecords⟩ := hrow
  exact ⟨s, a, hs, by decide +kernel, horder, hstored, hrecords.mode.trans hfound.2⟩

/-- `rtevent_task` finds the object gone later, and puts its result earlier. -/
theorem snapshots_out_of_order : ∃ s,
    run rootHost watchedConfig false false toString ∅ ∅
        (findsObject ++ [.examine (answersOf (ownedBy 0 33188 1)),
          .notify 0 "/w/a" true false, .rtevent 100, .examineRealtime missingAnswers,
          .rtevent 100, .event]) = some s ∧
      s.arrivals.map Handed.number = [none, some 1, some 0] ∧ ¬ InOrder s.arrivals := by
  refine ⟨_, rfl, rfl, ?_⟩
  intro h
  obtain ⟨-, h⟩ := List.pairwise_cons.mp h
  obtain ⟨h, -⟩ := List.pairwise_cons.mp h
  exact h _ List.mem_cons_self ⟨0, 1, _, _, rfl, rfl, rfl, rfl, rfl, Nat.zero_lt_one⟩

end Runs

end Ctguard.DiskscanDaemon
