import Ctguard.ObjectChanges
import Ctguard.PendingInserts

/-!
# An object that is seen twice in the same state

What an examination has found out is compared with the row that the one before it has stored, or
with the object that waits for its row. So to see the same again changes nothing but the marks of
the scan, and the task goes on as it would have done.
-/

namespace Ctguard.AlertTask

variable {unitTest : Bool} {blockSize : ℕ} {s s' t : State} {fd : FileData} {flags : Flags}

section Alike

theorem Alike.symm (h : Alike s t) : Alike t s :=
  ⟨h.rows.symm, h.inScan.symm, h.insertSet.symm, h.alerts.symm⟩

theorem Alike.trans (h : Alike s t) (h' : Alike t s') : Alike s s' :=
  ⟨h'.rows.trans h.rows, h'.inScan.trans h.inScan, h'.insertSet.trans h.insertSet,
    h'.alerts.trans h.alerts⟩

/-- Both calls fail, or both return with states that are alike. -/
abbrev AlikeResults (r r' : Result) : Prop := Option.Rel Alike r.toOption r'.toOption

theorem AlikeResults.bind {r r' : Result} (h : AlikeResults r r') {f g : State → Result}
    (hfg : ∀ u v, Alike u v → AlikeResults (f u) (g v)) : AlikeResults (r >>= f) (r' >>= g) := by
  cases r with
  | error e =>
    cases r' with
    | error e' => exact .none
    | ok v => cases h
  | ok u =>
    cases r' with
    | error e' => cases h
    | ok v =>
      cases h with
      | some h => exact hfg u v h

theorem mem_congr {db db' : Table} (h : rows db' = rows db) (name : String) :
    name ∈ db' ↔ name ∈ db := by
  rw [mem_iff_rows, mem_iff_rows, h]

theorem insertRow_congr {db db' : Table} (h : rows db' = rows db) :
    (∃ what, insertRow fd db = .error what ∧ insertRow fd db' = .error what) ∨
      ∃ r r', insertRow fd db = .ok r ∧ insertRow fd db' = .ok r' ∧ rows r' = rows r := by
  simp only [insertRow, mem_congr h]
  cases bindInsert fd.path fd.attributes with
  | error what => exact .inl ⟨what, rfl, rfl⟩
  | ok u =>
    by_cases hmem : fd.path ∈ db
    · simp only [if_pos hmem]
      exact .inl ⟨uniqueFailed, rfl, rfl⟩
    · simp only [if_neg hmem]
      refine .inr ⟨_, _, rfl, rfl, ?_⟩
      rw [rows_insert, rows_insert, h]

theorem Alike.insertAll (h : Alike s t) (fds : List FileData) :
    AlikeResults (insertAll fds s) (insertAll fds t) := by
  induction fds generalizing s t with
  | nil => exact .some h
  | cons fd fds ih =>
    rw [AlertTask.insertAll, AlertTask.insertAll]
    rcases @insertRow_congr fd _ _ h.rows with ⟨what, hs, ht⟩ | ⟨r, r', hs, ht, hrows⟩
    · rw [hs, ht]
      exact .none
    · rw [hs, ht]
      exact ih ⟨hrows, h.inScan, h.insertSet, by simp [h.alerts]⟩

theorem Alike.doInsertSet (h : Alike s t) : AlikeResults (doInsertSet s) (doInsertSet t) := by
  rw [AlertTask.doInsertSet, AlertTask.doInsertSet, h.insertSet]
  refine (h.insertAll (waiting s)).bind fun u v huv => ?_
  exact .some ⟨huv.rows, huv.inScan, rfl, huv.alerts⟩

end Alike

section Step

theorem Alike.compareRow (h : Alike s t) {row row' : Row} (hrow : row'.attributes = row.attributes) :
    AlikeResults (compareRow unitTest blockSize fd flags row s)
      (compareRow unitTest blockSize fd flags row' t) := by
  cases hchanged : changed unitTest row.attributes fd with
  | false =>
    obtain ⟨u, hu, hsu⟩ := @compareRow_unchanged unitTest blockSize fd flags row s hchanged
    obtain ⟨v, hv, htv⟩ := @compareRow_unchanged unitTest blockSize fd flags row' t
      (by rw [hrow, hchanged])
    rw [hu, hv]
    exact .some (hsu.symm.trans (h.trans htv))
  | true =>
    simp only [AlertTask.compareRow, hrow, hchanged, if_true]
    cases bindUpdate fd.path (row.attributes.updated fd) with
    | error what => exact .none
    | ok u =>
      refine .some ⟨?_, h.inScan, h.insertSet, by simp [h.alerts]⟩
      rw [rows_insert, rows_insert, h.rows]

theorem Alike.insertNew (h : Alike s t) :
    AlikeResults (insertNew blockSize fd s) (insertNew blockSize fd t) := by
  rw [AlertTask.insertNew, AlertTask.insertNew]
  by_cases hscan : s.inScan = true
  · have hset : Alike { s with insertSet := s.insertSet.insert fd.path fd }
        { t with insertSet := t.insertSet.insert fd.path fd } :=
      ⟨h.rows, h.inScan, by rw [h.insertSet], h.alerts⟩
    have hsize : (t.insertSet.insert fd.path fd).size = (s.insertSet.insert fd.path fd).size := by
      rw [h.insertSet]
    rw [if_pos hscan, if_pos (h.inScan.trans hscan)]
    simp only [hsize]
    split
    · exact hset.doInsertSet
    · exact .some hset
  · rw [if_neg hscan, if_neg (by rw [h.inScan]; exact hscan)]
    rcases @insertRow_congr fd _ _ h.rows with ⟨what, hs, ht⟩ | ⟨r, r', hs, ht, hrows⟩
    · rw [hs, ht]
      exact .none
    · rw [hs, ht]
      exact .some ⟨hrows, h.inScan, h.insertSet, by simp [h.alerts]⟩

theorem Alike.handleFileData (h : Alike s t) :
    AlikeResults (handleFileData unitTest blockSize fd flags s)
      (handleFileData unitTest blockSize fd flags t) := by
  rw [AlertTask.handleFileData, AlertTask.handleFileData]
  cases bindText fd.path with
  | error what => exact .none
  | ok u =>
    have hrows : t.db[fd.path]?.map Row.attributes = s.db[fd.path]?.map Row.attributes :=
      congrFun h.rows fd.path
    cases hs : s.db[fd.path]? with
    | none =>
      obtain ht : t.db[fd.path]? = none := by simpa [hs] using hrows
      simp only [ht]
      split
      · exact h.insertNew
      · exact .some h
    | some row =>
      obtain ⟨row', ht, hrow⟩ : ∃ row', t.db[fd.path]? = some row' ∧
          row'.attributes = row.attributes := by simpa [hs] using hrows
      simp only [ht]
      split
      · exact h.compareRow hrow
      · refine .some ⟨?_, h.inScan, h.insertSet, by simp [h.alerts, hrow]⟩
        rw [rows_erase, rows_erase, h.rows]

theorem Alike.midScan (h : Alike s t) : AlikeResults (midScan s) (midScan t) := by
  rw [AlertTask.midScan, AlertTask.midScan]
  have hflush : ∀ events events', Alike { s with events := events, inScan := false }
      { t with events := events', inScan := false } :=
    fun events events' => ⟨h.rows, rfl, h.insertSet, h.alerts⟩
  refine (hflush _ _).doInsertSet.bind fun u v huv => .some ⟨?_, huv.inScan, huv.insertSet, huv.alerts⟩
  rw [rows_doUpdateQueue, rows_doUpdateQueue, huv.rows]

theorem Alike.handle (h : Alike s t) {running : Bool} (m : Message) :
    AlikeResults (handle unitTest blockSize running m s)
      (handle unitTest blockSize running m t) := by
  rw [AlertTask.handle, AlertTask.handle]
  split
  · exact .some ⟨h.rows, h.inScan, h.insertSet, h.alerts⟩
  split
  · refine .some ⟨?_, rfl, h.insertSet, h.alerts⟩
    rw [rows_startScan, rows_startScan, h.rows]
  split
  · exact h.midScan
  split
  · exact .some ⟨h.rows, h.inScan, h.insertSet, h.alerts⟩
  split
  · exact .some h
  · exact h.handleFileData

end Step

section Again

/-- Every `file_data` is made by the factory. -/
def Constructed (fd : FileData) : Prop :=
  ∃ host maxDiffSize answers diffs path checkContent checkDiff diffs',
    construct host maxDiffSize answers diffs path checkContent checkDiff = .ok (some fd, diffs')

theorem construct_missing {host : FileHost} {maxDiffSize : UInt32} {answers : Answers}
    {diffs diffs' : DiffTable} {path : String} {checkContent checkDiff : Bool}
    (hstat : answers.lstat = none)
    (h : construct host maxDiffSize answers diffs path checkContent checkDiff =
      .ok (some fd, diffs')) : fd.existing = false := by
  rw [construct] at h
  split at h
  · cases h
  simp only [hstat] at h
  cases h
  rfl

theorem Constructed.clean (h : Constructed fd) (hexists : fd.existing = true) : Clean fd := by
  obtain ⟨host, maxDiffSize, answers, diffs, path, checkContent, checkDiff, diffs', h⟩ := h
  cases hstat : answers.lstat with
  | none =>
    rw [construct_missing hstat h] at hexists
    cases hexists
  | some stat => exact (construct_examined hstat h).clean

/-- An object that still waits for its row waits as it did. -/
theorem insert_insert (set : Std.ExtTreeMap String FileData) (name : String) (p : FileData) :
    (set.insert name p).insert name p = set.insert name p := by
  apply Std.ExtTreeMap.ext_getElem?
  intro n
  simp only [Std.ExtTreeMap.getElem?_insert]
  split <;> rfl

theorem insertNew_again (hpending : Pending s) (hclean : Clean fd)
    (hbound : bindText fd.path = .ok ()) (hfound : s.db[fd.path]? = none)
    (hexists : fd.existing = true) (hscan : s.inScan = true)
    (h : insertNew blockSize fd s = .ok s') (flags : Flags) :
    ∃ t, handleFileData unitTest blockSize fd flags s' = .ok t ∧ Alike s' t := by
  have hfree : rows s.db fd.path = none := by rw [rows, hfound, Option.map_none]
  have hwaits : Waits { s with insertSet := s.insertSet.insert fd.path fd } :=
    hpending.waits.insert hbound hfree rfl rfl
  rw [insertNew, if_pos hscan] at h
  simp only at h
  split at h
  · -- the batch has been written, and the object has its row
    have hwritten := rows_doInsertSet hwaits h
    refine handleFileData_recorded s' ?_ hexists hbound ((shows_attributes fd).records hclean)
    simp [hwritten, writtenRows]
  · rename_i hsize
    cases h
    refine ⟨{ s with insertSet := s.insertSet.insert fd.path fd }, ?_, .refl _⟩
    simp only [handleFileData, hbound, hfound, hexists, if_true, insertNew, hscan, insert_insert,
      if_neg hsize]

/-- Whatever the first message has done, the second does nothing that counts. -/
theorem handleFileData_again (hpending : Pending s) (hfd : Constructed fd)
    (h : handleFileData unitTest blockSize fd flags s = .ok s') (flags' : Flags) :
    ∃ t, handleFileData unitTest blockSize fd flags' s' = .ok t ∧ Alike s' t := by
  obtain ⟨hbound, hhandled⟩ := handleFileData_handled h
  have hsame : ∀ {row : Row}, s.db[fd.path]? = some row → fd.existing = true →
      changed unitTest row.attributes fd = false → rows s'.db = rows s.db →
        ∃ t, handleFileData unitTest blockSize fd flags' s' = .ok t ∧ Alike s' t := by
    intro row hfound hexists hchanged hrows
    refine handleFileData_recorded s' ?_ hexists hbound (changed_eq_false_iff.mp hchanged)
    rw [hrows, rows, hfound, Option.map_some]
  cases hhandled with
  | absent hfound hexists =>
    refine ⟨s, ?_, .refl s⟩
    simp [handleFileData, hbound, hfound, hexists]
  | inserted hfound hexists hscan =>
    refine handleFileData_recorded _ ?_ hexists hbound
      ((shows_attributes fd).records (hfd.clean hexists))
    simp [rows_insert]
  | waits hfound hexists hscan =>
    have hnew : insertNew blockSize fd s =
        .ok { s with insertSet := s.insertSet.insert fd.path fd } := by
      simpa [handleFileData, hbound, hfound, hexists] using h
    exact insertNew_again hpending (hfd.clean hexists) hbound hfound hexists hscan hnew flags'
  | batch hfound hexists hscan hwritten =>
    have hnew : insertNew blockSize fd s = .ok s' := by
      simpa [handleFileData, hbound, hfound, hexists] using h
    exact insertNew_again hpending (hfd.clean hexists) hbound hfound hexists hscan hnew flags'
  | deleted hfound hexists =>
    refine ⟨_, ?_, .refl _⟩
    simp [handleFileData, hbound, hexists]
  | updated hfound hexists hchanged hstorable =>
    rename_i row
    refine handleFileData_recorded _ ?_ hexists hbound
      ((shows_updated row.attributes fd).records (hfd.clean hexists))
    simp [rows_insert]
  | unchanged hfound hexists hchanged hforce => exact hsame hfound hexists hchanged rfl
  | confirmed hfound hexists hchanged hforce hscan =>
    exact hsame hfound hexists hchanged (rows_confirm _ _)
  | queued hfound hexists hchanged hforce hscan => exact hsame hfound hexists hchanged rfl
  | confirmedAll hfound hexists hchanged hforce hscan =>
    exact hsame hfound hexists hchanged (rows_doUpdateQueue _)

/-- States that are alike go on alike, whatever comes. -/
theorem Alike.run (h : Alike s t) (ms : List Message) :
    Option.Rel Alike (runSteps (messageStep unitTest blockSize) s ms)
      (runSteps (messageStep unitTest blockSize) t ms) :=
  runSteps_rel (fun hst m => hst.handle m) h ms

/-- An object that is handled twice in the same state leaves the rows, what waits and the alerts
as if it had been handled once, and so does everything that is handled later: there is no second
alert, neither now nor when the batch is written. -/
theorem seen_twice_silent (db : Table) (ms : List Message)
    (hrun : runSteps (messageStep unitTest blockSize) { db := db } ms = some s)
    (hfd : Constructed fd) (h : handleFileData unitTest blockSize fd flags s = .ok s')
    (flags' : Flags) : ∃ t, handleFileData unitTest blockSize fd flags' s' = .ok t ∧ Alike s' t ∧
      ∀ ms', Option.Rel Alike (runSteps (messageStep unitTest blockSize) s' ms')
        (runSteps (messageStep unitTest blockSize) t ms') := by
  obtain ⟨t, ht, halike⟩ := handleFileData_again (pending_run hrun) hfd h flags'
  exact ⟨t, ht, halike, halike.run⟩

theorem Observation.made {host : FileHost} {path : String} (o : Observation host path) :
    Constructed o.fd := by
  obtain ⟨maxDiffSize, diffs, checkDiff, diffs', h⟩ := o.constructed
  exact ⟨host, maxDiffSize, o.answers, diffs, path, true, checkDiff, diffs', h⟩

theorem seen_twice_silent_new :
    let fd := (observedFile 97).fd
    let s : State := { db := tableOf fd, alerts := [.new fd] }
    ∃ t, handleFileData false 1000 fd { forceUpdate := true } s = .ok t ∧ Alike s t ∧
      ∀ ms, Option.Rel Alike (runSteps (messageStep false 1000) s ms)
        (runSteps (messageStep false 1000) t ms) := by
  refine @seen_twice_silent false 1000 {} _ (observedFile 97).fd {} ∅ [] rfl (observedFile 97).made
    ?_ { forceUpdate := true }
  rfl

end Again

end Ctguard.AlertTask
