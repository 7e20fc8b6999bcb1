import Ctguard.ScanBatching

/-!
# The objects that wait for their row

Whatever `alert_task` handles, the waiting objects have no rows, and outside the first phase of
a scan nothing waits. So an `INSERT` always finds its name free.
-/

namespace Ctguard.AlertTask

variable {unitTest : Bool} {blockSize : ℕ} {s s' : State} {fd : FileData} {flags : Flags}

section Inversion

/-- What a message with the result of an examination can do. -/
inductive Handled (unitTest : Bool) (fd : FileData) (flags : Flags) (s : State) : State → Prop
  | absent (hfound : s.db[fd.path]? = none) (hexists : fd.existing = false) :
      Handled unitTest fd flags s s
  | inserted (hfound : s.db[fd.path]? = none) (hexists : fd.existing = true)
      (hscan : s.inScan = false) : Handled unitTest fd flags s { s with
        db := s.db.insert fd.path { attributes := fd.attributes }
        alerts := s.alerts ++ [.new fd] }
  | waits (hfound : s.db[fd.path]? = none) (hexists : fd.existing = true)
      (hscan : s.inScan = true) :
      Handled unitTest fd flags s { s with insertSet := s.insertSet.insert fd.path fd }
  | batch {t : State} (hfound : s.db[fd.path]? = none) (hexists : fd.existing = true)
      (hscan : s.inScan = true)
      (hwritten : doInsertSet { s with insertSet := s.insertSet.insert fd.path fd } = .ok t) :
      Handled unitTest fd flags s t
  | deleted {row : Row} (hfound : s.db[fd.path]? = some row) (hexists : fd.existing = false) :
      Handled unitTest fd flags s { s with
        db := s.db.erase fd.path
        alerts := s.alerts ++ [.deleted fd.path row.attributes.type] }
  | updated {row : Row} (hfound : s.db[fd.path]? = some row) (hexists : fd.existing = true)
      (hchanged : changed unitTest row.attributes fd = true)
      (hstorable : storable fd.path (row.attributes.updated fd) = true) :
      Handled unitTest fd flags s { s with
        db := s.db.insert fd.path { attributes := row.attributes.updated fd }
        alerts := s.alerts ++ [.changed fd (changes unitTest row.attributes fd)] }
  | unchanged {row : Row} (hfound : s.db[fd.path]? = some row) (hexists : fd.existing = true)
      (hchanged : changed unitTest row.attributes fd = false)
      (hforce : flags.forceUpdate = false) : Handled unitTest fd flags s s
  | confirmed {row : Row} (hfound : s.db[fd.path]? = some row) (hexists : fd.existing = true)
      (hchanged : changed unitTest row.attributes fd = false)
      (hforce : flags.forceUpdate = true) (hscan : s.inScan = false) :
      Handled unitTest fd flags s { s with db := confirm s.db fd.path }
  | queued {row : Row} (hfound : s.db[fd.path]? = some row) (hexists : fd.existing = true)
      (hchanged : changed unitTest row.attributes fd = false)
      (hforce : flags.forceUpdate = true) (hscan : s.inScan = true) :
      Handled unitTest fd flags s { s with updateQueue := s.updateQueue ++ [fd.path] }
  | confirmedAll {row : Row} (hfound : s.db[fd.path]? = some row) (hexists : fd.existing = true)
      (hchanged : changed unitTest row.attributes fd = false)
      (hforce : flags.forceUpdate = true) (hscan : s.inScan = true) :
      Handled unitTest fd flags s
        (doUpdateQueue { s with updateQueue := s.updateQueue ++ [fd.path] })

theorem insertRow_eq_ok {db db' : Table} (h : insertRow fd db = .ok db') :
    fd.path ∉ db ∧ db' = db.insert fd.path { attributes := fd.attributes } := by
  rw [insertRow] at h
  cases hbind : bindInsert fd.path fd.attributes with
  | error what =>
    rw [hbind] at h
    cases h
  | ok u =>
    rw [hbind] at h
    by_cases hmem : fd.path ∈ db
    · simp [hmem, bind, Except.bind, throw, throwThe, MonadExceptOf.throw] at h
    · simp only [hmem, bind, Except.bind, if_false] at h
      exact ⟨hmem, (Except.ok.inj h).symm⟩

theorem compareRow_handled {row : Row} (hfound : s.db[fd.path]? = some row)
    (hexists : fd.existing = true)
    (h : compareRow unitTest blockSize fd flags row s = .ok s') :
    Handled unitTest fd flags s s' := by
  rw [compareRow] at h
  by_cases hchanged : changed unitTest row.attributes fd = true
  · simp only [if_pos hchanged] at h
    split at h
    · cases h
    · rename_i hbind
      cases h
      exact .updated hfound hexists hchanged (bindUpdate_eq_ok.mp hbind)
  rw [if_neg hchanged] at h
  rw [Bool.not_eq_true] at hchanged
  by_cases hforce : flags.forceUpdate = true
  · rw [if_pos hforce] at h
    by_cases hscan : s.inScan = true
    · simp only [if_pos hscan] at h
      split at h
      · cases h
        exact .confirmedAll hfound hexists hchanged hforce hscan
      · cases h
        exact .queued hfound hexists hchanged hforce hscan
    · rw [if_neg hscan] at h
      rw [Bool.not_eq_true] at hscan
      cases h
      exact .confirmed hfound hexists hchanged hforce hscan
  · rw [if_neg hforce] at h
    rw [Bool.not_eq_true] at hforce
    cases h
    exact .unchanged hfound hexists hchanged hforce

theorem insertNew_handled (hfound : s.db[fd.path]? = none) (hexists : fd.existing = true)
    (h : insertNew blockSize fd s = .ok s') : Handled unitTest fd flags s s' := by
  rw [insertNew] at h
  by_cases hscan : s.inScan = true
  · simp only [if_pos hscan] at h
    split at h
    · exact .batch hfound hexists hscan h
    · cases h
      exact .waits hfound hexists hscan
  · rw [if_neg hscan] at h
    rw [Bool.not_eq_true] at hscan
    split at h
    · cases h
    · rename_i db hinsert
      obtain ⟨-, rfl⟩ := insertRow_eq_ok hinsert
      cases h
      exact .inserted hfound hexists hscan

/-- A message that does not end the task has found its path short enough. -/
theorem handleFileData_handled (h : handleFileData unitTest blockSize fd flags s = .ok s') :
    bindText fd.path = .ok () ∧ Handled unitTest fd flags s s' := by
  rw [handleFileData] at h
  cases hbound : bindText fd.path with
  | error what => simp [hbound] at h
  | ok u =>
    refine ⟨rfl, ?_⟩
    rw [hbound] at h
    cases hfound : s.db[fd.path]? with
    | none =>
      cases hexists : fd.existing with
      | false =>
        simp only [hfound, hexists, Bool.false_eq_true, if_false] at h
        cases h
        exact .absent hfound hexists
      | true =>
        simp only [hfound, hexists, if_true] at h
        exact insertNew_handled hfound hexists h
    | some row =>
      cases hexists : fd.existing with
      | false =>
        simp only [hfound, hexists, Bool.false_eq_true, if_false] at h
        cases h
        exact .deleted hfound hexists
      | true =>
        simp only [hfound, hexists, if_true] at h
        exact compareRow_handled hfound hexists h

/-- The events for the second phase, and behind them the last marker. -/
def phaseTwoEvents (db : Table) : List (String × Flags) :=
  (unscanned db).map (columnText ·, { chkContent := true, forceUpdate := true }) ++
    [("", { endscan := true })]

/-- What the end of the first phase does. -/
theorem midScan_eq_ok (h : midScan s = .ok s') : ∃ t,
    doInsertSet { s with events := s.events ++ phaseTwoEvents s.db, inScan := false } = .ok t ∧
      s' = doUpdateQueue t := by
  rw [midScan] at h
  obtain ⟨t, hrun, h⟩ := Ctguard.bind_eq_ok.mp h
  exact ⟨t, hrun, (Except.ok.inj h).symm⟩

end Inversion

section Pending

/-- Nothing waits outside the first phase of a scan, and what waits has no row. -/
structure Pending (s : State) : Prop where
  waits : Waits s
  idle : s.inScan = false → s.insertSet = ∅ ∧ s.updateQueue = []

theorem Waits.not_waiting_of_found (h : Waits s) {name : String} {row : Row}
    (hfound : s.db[name]? = some row) : s.insertSet[name]? = none := by
  cases hp : s.insertSet[name]? with
  | none => rfl
  | some p =>
    have hfree := (h name p hp).2.2
    simp [rows, hfound] at hfree

theorem Pending.handled (h : Pending s) (hbound : bindText fd.path = .ok ())
    (hs' : Handled unitTest fd flags s s') : Pending s' := by
  cases hs' with
  | absent hfound hexists => exact h
  | inserted hfound hexists hscan =>
    have hempty := (h.idle hscan).1
    exact ⟨.of_empty hempty, h.idle⟩
  | waits hfound hexists hscan =>
    have hfree : rows s.db fd.path = none := by simp [rows, hfound]
    refine ⟨h.waits.insert hbound hfree rfl rfl, ?_⟩
    intro hcontra
    simp [hscan] at hcontra
  | batch hfound hexists hscan hwritten =>
    rw [doInsertSet_eq_ok hwritten]
    refine ⟨.of_empty rfl, ?_⟩
    intro hcontra
    simp [hscan] at hcontra
  | deleted hfound hexists =>
    exact ⟨h.waits.update (h.waits.not_waiting_of_found hfound) rfl (rows_erase s.db fd.path),
      h.idle⟩
  | updated hfound hexists hchanged hstorable =>
    exact ⟨h.waits.update (h.waits.not_waiting_of_found hfound) rfl
      (rows_insert s.db fd.path _ true), h.idle⟩
  | unchanged hfound hexists hchanged hforce => exact h
  | confirmed hfound hexists hchanged hforce hscan =>
    exact ⟨h.waits.congr rfl (rows_confirm s.db fd.path), h.idle⟩
  | queued hfound hexists hchanged hforce hscan =>
    refine ⟨h.waits.congr rfl rfl, ?_⟩
    intro hcontra
    simp [hscan] at hcontra
  | confirmedAll hfound hexists hchanged hforce hscan =>
    refine ⟨h.waits.congr rfl (rows_doUpdateQueue _), ?_⟩
    intro hcontra
    simp [doUpdateQueue, hscan] at hcontra

theorem Pending.startScan (h : Pending s) : Pending (startScan s) := by
  refine ⟨h.waits.congr rfl (rows_startScan s), ?_⟩
  intro hcontra
  simp [AlertTask.startScan] at hcontra

theorem Pending.midScan (hs' : midScan s = .ok s') : Pending s' := by
  obtain ⟨t, hwritten, rfl⟩ := midScan_eq_ok hs'
  rw [doInsertSet_eq_ok hwritten]
  exact ⟨.of_empty rfl, fun _ => ⟨rfl, rfl⟩⟩

/-- Every message leaves it so, also a marker out of turn. -/
theorem Pending.handle (h : Pending s) {running : Bool} {m : Message}
    (hs' : handle unitTest blockSize running m s = .ok s') : Pending s' := by
  rw [AlertTask.handle] at hs'
  split at hs'
  · cases hs'
    exact ⟨h.waits.congr rfl rfl, h.idle⟩
  split at hs'
  · cases hs'
    exact h.startScan
  split at hs'
  · exact .midScan hs'
  split at hs'
  · cases hs'
    exact ⟨h.waits.congr rfl rfl, h.idle⟩
  split at hs'
  · cases hs'
    exact h
  · obtain ⟨hbound, hhandled⟩ := handleFileData_handled hs'
    exact h.handled hbound hhandled

end Pending

section Unique

/-- The call does not fail for a name that has a row. -/
def NotTaken {α : Type} {ε : Type} (text : ε → String) (x : Except ε α) : Prop :=
  ∀ e, x = .error e → text e ≠ uniqueFailed

theorem NotTaken.bind {x : Except String Unit} {f : Unit → Except String Unit}
    (hx : NotTaken id x) (hf : NotTaken id (f ())) : NotTaken id (x >>= f) := by
  cases x with
  | error what => exact hx
  | ok u => exact hf

/-- Refused values are reported in another way. -/
theorem notTaken_guard {p : Prop} [Decidable p] {what : String}
    (hwhat : what.toList[1]? = some 'o') :
    NotTaken id (if p then .error what else .ok () : Except String Unit) := by
  intro e h
  split at h
  · cases h
    intro heq
    rw [id_eq] at heq
    rw [heq] at hwhat
    simp [uniqueFailed] at hwhat
  · cases h

theorem notTaken_bindInsert (path : String) (a : Attributes) : NotTaken id (bindInsert path a) := by
  refine .bind (notTaken_guard ?_) <| .bind (notTaken_guard ?_) <| .bind (notTaken_guard ?_) <|
    .bind (notTaken_guard ?_) <| .bind (notTaken_guard ?_) <| .bind (notTaken_guard ?_) <|
    .bind (notTaken_guard ?_) (notTaken_guard ?_)
  all_goals simp

theorem notTaken_bindUpdate (path : String) (a : Attributes) : NotTaken id (bindUpdate path a) := by
  refine .bind (notTaken_guard ?_) <| .bind (notTaken_guard ?_) <| .bind (notTaken_guard ?_) <|
    .bind (notTaken_guard ?_) <| .bind (notTaken_guard ?_) <| .bind (notTaken_guard ?_) <|
    .bind (notTaken_guard ?_) (notTaken_guard ?_)
  all_goals simp

theorem notTaken_insertRow {db : Table} (hfree : fd.path ∉ db) : NotTaken id (insertRow fd db) := by
  intro e h
  rw [insertRow] at h
  cases hbind : bindInsert fd.path fd.attributes with
  | error what =>
    rw [hbind] at h
    cases h
    exact notTaken_bindInsert _ _ _ hbind
  | ok u =>
    rw [hbind] at h
    simp [hfree, pure, Except.pure, bind, Except.bind] at h

theorem notTaken_insertAll {fds : List FileData}
    (hpaths : fds.Pairwise fun p q => p.path ≠ q.path) (hfree : ∀ p ∈ fds, p.path ∉ s.db) :
    NotTaken Prod.snd (insertAll fds s) := by
  induction fds generalizing s with
  | nil =>
    intro e h
    cases h
  | cons fd fds ih =>
    obtain ⟨hfd, hfds⟩ := List.pairwise_cons.mp hpaths
    intro e h
    rw [insertAll] at h
    cases hrun : insertRow fd s.db with
    | error what =>
      rw [hrun] at h
      cases h
      exact notTaken_insertRow (hfree fd List.mem_cons_self) _ hrun
    | ok db =>
      rw [hrun] at h
      refine ih hfds ?_ e h
      intro p hp
      obtain ⟨-, rfl⟩ := insertRow_eq_ok hrun
      rw [Std.ExtTreeMap.mem_insert, compare_eq_iff]
      rintro (hsame | hmem)
      · exact hfd p hp hsame.symm
      · exact hfree p (List.mem_cons_of_mem _ hp) hmem

theorem Waits.free (h : Waits s) {name : String} {p : FileData}
    (hp : s.insertSet[name]? = some p) : name ∉ s.db := by
  rw [mem_iff_rows, (h name p hp).2.2]
  simp

theorem Waits.notTaken (h : Waits s) : NotTaken Prod.snd (doInsertSet s) := by
  have hfree : ∀ p ∈ waiting s, p.path ∉ s.db := fun p hp => h.free (h.mem_waiting.mp hp)
  intro e hrun
  rw [doInsertSet] at hrun
  cases hall : insertAll (waiting s) s with
  | error e' =>
    rw [hall] at hrun
    cases hrun
    exact notTaken_insertAll h.waiting_pairwise hfree _ hall
  | ok t =>
    rw [hall] at hrun
    cases hrun

theorem notTaken_compareRow {row : Row} :
    NotTaken Prod.snd (compareRow unitTest blockSize fd flags row s) := by
  intro e h
  rw [compareRow] at h
  simp only at h
  split at h
  · split at h
    · rename_i hbind
      cases h
      exact notTaken_bindUpdate _ _ _ hbind
    · cases h
  · split at h
    · split at h
      · cases h
      · cases h
    · cases h

theorem Waits.notTaken_insertNew (h : Waits s) (hbound : bindText fd.path = .ok ())
    (hfound : s.db[fd.path]? = none) : NotTaken Prod.snd (insertNew blockSize fd s) := by
  have hfree : rows s.db fd.path = none := by simp [rows, hfound]
  intro e hrun
  rw [insertNew] at hrun
  simp only at hrun
  split at hrun
  · split at hrun
    · have hwaits : Waits { s with insertSet := s.insertSet.insert fd.path fd } :=
        h.insert hbound hfree rfl rfl
      exact hwaits.notTaken e hrun
    · cases hrun
  · split at hrun
    · rename_i what hinsert
      cases hrun
      refine notTaken_insertRow ?_ _ hinsert
      rw [mem_iff_rows, hfree]
      simp
    · cases hrun

theorem Waits.notTaken_handleFileData (h : Waits s) :
    NotTaken Prod.snd (handleFileData unitTest blockSize fd flags s) := by
  intro e hrun
  rw [handleFileData] at hrun
  cases hbound : bindText fd.path with
  | error what =>
    rw [hbound] at hrun
    cases hrun
    exact notTaken_guard (by simp) _ hbound
  | ok u =>
    rw [hbound] at hrun
    cases hfound : s.db[fd.path]? with
    | none =>
      simp only [hfound] at hrun
      split at hrun
      · exact h.notTaken_insertNew hbound hfound e hrun
      · cases hrun
    | some row =>
      simp only [hfound] at hrun
      split at hrun
      · exact notTaken_compareRow e hrun
      · cases hrun

theorem Waits.notTaken_midScan (h : Waits s) : NotTaken Prod.snd (midScan s) := by
  intro e hrun
  rw [midScan] at hrun
  let queued := (unscanned s.db).map (columnText ·, { chkContent := true, forceUpdate := true }) ++
    [("", ({ endscan := true } : Flags))]
  have hwaits : Waits { s with events := s.events ++ queued, inScan := false } := h.congr rfl rfl
  cases hwritten : doInsertSet { s with events := s.events ++ queued, inScan := false } with
  | error e' =>
    rw [hwritten] at hrun
    cases hrun
    exact hwaits.notTaken e hwritten
  | ok t =>
    rw [hwritten] at hrun
    cases hrun

/-- No message fails for a name that has a row. -/
theorem Waits.notTaken_handle (h : Waits s) {running : Bool} {m : Message} :
    NotTaken Prod.snd (handle unitTest blockSize running m s) := by
  intro e hrun
  rw [handle] at hrun
  split at hrun
  · cases hrun
  split at hrun
  · cases hrun
  split at hrun
  · exact h.notTaken_midScan e hrun
  split at hrun
  · cases hrun
  split at hrun
  · cases hrun
  · exact h.notTaken_handleFileData e hrun

theorem messageStep_eq_some {m : Message} : messageStep unitTest blockSize s m = some s' ↔
    handle unitTest blockSize true m s = .ok s' := by
  rw [messageStep]
  cases handle unitTest blockSize true m s <;> simp [Except.toOption]

theorem pending_run {db : Table} {ms : List Message}
    (h : runSteps (messageStep unitTest blockSize) { db := db } ms = some s) : Pending s := by
  have hstart : Pending { db := db } := ⟨.of_empty rfl, fun _ => ⟨rfl, rfl⟩⟩
  refine runSteps_invariant ?_ hstart h
  intro u m v hu hv
  exact hu.handle (messageStep_eq_some.mp hv)

/-- In every state of the task, each path waits at most once and has at most one row, what waits
has no row, nothing waits outside the first phase of a scan, and so the next message inserts
no name that is taken. -/
theorem insertSet_never_collides (db : Table) (ms : List Message)
    (h : runSteps (messageStep unitTest blockSize) { db := db } ms = some s) :
    ((waiting s).map FileData.path).Nodup ∧ (∀ p ∈ waiting s, p.path ∉ s.db) ∧
      (s.inScan = false → s.insertSet = ∅ ∧ s.updateQueue = []) ∧ s.db.keys.Nodup ∧
      ∀ running m t what,
        handle unitTest blockSize running m s = .error (t, what) → what ≠ uniqueFailed := by
  have hpending := pending_run h
  refine ⟨?_, ?_, hpending.idle, ?_, ?_⟩
  · exact List.pairwise_map.mpr hpending.waits.waiting_pairwise
  · exact fun p hp => hpending.waits.free (hpending.waits.mem_waiting.mp hp)
  · exact Std.ExtTreeMap.nodup_keys
  · exact fun running m t what hrun => hpending.waits.notTaken_handle (t, what) hrun

/-- Two objects of a directory are recorded, and two more appear while a scan confirms one of
them. -/
def recordedPair : Table :=
  ((∅ : Table).insert "/etc/group" { attributes := appeared.attributes }).insert "/etc/issue"
    { attributes := appeared.attributes }

def twoNew : List Message :=
  [{ flags := { startscan := true } }, .ofResult (appeared, {}),
    .ofResult ({ appeared with path := "/etc/issue" }, { forceUpdate := true }),
    .ofResult ({ appeared with path := "/etc/hosts" }, {})]

theorem insertSet_never_collides_twoNew :
    ∃ s, runSteps (messageStep false 1000) { db := recordedPair } twoNew = some s ∧
      (waiting s).map FileData.path = ["/etc/hosts", "/etc/motd"] ∧
      s.db.keys = ["/etc/group", "/etc/issue"] ∧
      ((waiting s).map FileData.path).Nodup ∧ (∀ p ∈ waiting s, p.path ∉ s.db) ∧
        (s.inScan = false → s.insertSet = ∅ ∧ s.updateQueue = []) ∧ s.db.keys.Nodup ∧
        ∀ running m t what,
          handle false 1000 running m s = .error (t, what) → what ≠ uniqueFailed := by
  have hview : (runSteps (messageStep false 1000) { db := recordedPair } twoNew).map
      (fun s => ((waiting s).map FileData.path, s.db.keys)) =
        some (["/etc/hosts", "/etc/motd"], ["/etc/group", "/etc/issue"]) := by decide +kernel
  obtain ⟨s, hs, hpaths⟩ := Option.map_eq_some_iff.mp hview
  obtain ⟨hwaiting, hkeys⟩ := Prod.mk.inj hpaths
  exact ⟨s, hs, hwaiting, hkeys, insertSet_never_collides recordedPair twoNew hs⟩

end Unique

end Ctguard.AlertTask
