import Ctguard.PendingInserts

/-!
# What a scan leaves behind

The start of a scan makes all rows unscanned. Every statement but that makes a row scanned or
leaves its mark, so after the end of the first phase only queued names have unscanned rows, and
the answer to a queued name makes its row scanned or removes it.
-/

namespace Ctguard.AlertTask

variable {unitTest : Bool} {blockSize : ℕ} {s s' : State} {fd : FileData} {flags : Flags}

section Unscanned

variable {db : Table} {name path : String}

theorem mem_unscanned :
    name ∈ unscanned db ↔ ∃ row, db[name]? = some row ∧ row.scanned = false := by
  rw [unscanned, Std.ExtTreeMap.mem_keys, Std.ExtTreeMap.mem_iff_isSome_getElem?]
  simp [Option.any_eq_true]

theorem mem_unscanned_insert {a : Attributes} :
    name ∈ unscanned (db.insert path { attributes := a }) ↔ name ≠ path ∧ name ∈ unscanned db := by
  rw [mem_unscanned, mem_unscanned, Std.ExtTreeMap.getElem?_insert]
  simp only [compare_eq_iff]
  split <;> simp_all

theorem mem_unscanned_erase :
    name ∈ unscanned (db.erase path) ↔ name ≠ path ∧ name ∈ unscanned db := by
  rw [mem_unscanned, mem_unscanned, Std.ExtTreeMap.getElem?_erase]
  simp only [compare_eq_iff]
  split <;> simp_all

theorem mem_unscanned_confirm :
    name ∈ unscanned (confirm db path) ↔ name ≠ path ∧ name ∈ unscanned db := by
  rw [mem_unscanned, mem_unscanned, confirm, Std.ExtTreeMap.getElem?_modify]
  simp only [compare_eq_iff]
  split <;> simp_all

/-- A batch of inserts leaves fewer rows unscanned, if it changes their number at all. -/
theorem unscanned_insertAll {fds : List FileData} (h : insertAll fds s = .ok s') :
    unscanned s'.db ⊆ unscanned s.db := by
  induction fds generalizing s with
  | nil =>
    cases h
    exact List.Subset.refl _
  | cons fd fds ih =>
    rw [insertAll] at h
    split at h
    · cases h
    · rename_i db hinsert
      obtain ⟨-, rfl⟩ := insertRow_eq_ok hinsert
      intro name hname
      exact (mem_unscanned_insert.mp (ih h hname)).2

theorem unscanned_doInsertSet (h : doInsertSet s = .ok s') : unscanned s'.db ⊆ unscanned s.db := by
  obtain ⟨t, hrun, rfl⟩ := exists_insertAll h
  have hsubset := unscanned_insertAll hrun
  exact hsubset

theorem unscanned_foldl_confirm (paths : List String) :
    unscanned (paths.foldl confirm db) ⊆ unscanned db := by
  induction paths generalizing db with
  | nil => exact List.Subset.refl _
  | cons path paths ih =>
    intro name hname
    exact (mem_unscanned_confirm.mp (ih hname)).2

theorem events_midScan (h : midScan s = .ok s') : s'.events = s.events ++ phaseTwoEvents s.db := by
  obtain ⟨t, hwritten, rfl⟩ := midScan_eq_ok h
  rw [doInsertSet_eq_ok hwritten]
  rfl

theorem unscanned_midScan (h : midScan s = .ok s') : unscanned s'.db ⊆ unscanned s.db := by
  obtain ⟨t, hwritten, rfl⟩ := midScan_eq_ok h
  have hsubset := unscanned_doInsertSet hwritten
  exact List.Subset.trans (unscanned_foldl_confirm t.updateQueue) hsubset

end Unscanned

section Examined

theorem Handled.inScan_eq (h : Handled unitTest fd flags s s') : s'.inScan = s.inScan := by
  cases h with
  | batch hfound hexists hscan hwritten => rw [doInsertSet_eq_ok hwritten]
  | _ => rfl

/-- The result of an examination never makes a row unscanned. -/
theorem Handled.unscanned_subset (h : Handled unitTest fd flags s s') :
    unscanned s'.db ⊆ unscanned s.db := by
  intro name hname
  cases h with
  | inserted hfound hexists hscan => exact (mem_unscanned_insert.mp hname).2
  | batch hfound hexists hscan hwritten => exact unscanned_doInsertSet hwritten hname
  | deleted hfound hexists => exact (mem_unscanned_erase.mp hname).2
  | updated hfound hexists hchanged hstorable => exact (mem_unscanned_insert.mp hname).2
  | confirmed hfound hexists hchanged hforce hscan => exact (mem_unscanned_confirm.mp hname).2
  | confirmedAll hfound hexists hchanged hforce hscan => exact unscanned_foldl_confirm _ hname
  | _ => exact hname

variable (hscan : s.inScan = false)

include hscan

/-- Outside the first phase, the answer to a queued name leaves no unscanned row under it. -/
theorem Handled.not_unscanned (h : Handled unitTest fd flags s s')
    (hforce : flags.forceUpdate = true) : fd.path ∉ unscanned s'.db := by
  intro hname
  cases h with
  | absent hfound hexists =>
    obtain ⟨row, hrow, -⟩ := mem_unscanned.mp hname
    simp [hfound] at hrow
  | inserted hfound hexists hscan => exact (mem_unscanned_insert.mp hname).1 rfl
  | deleted hfound hexists => exact (mem_unscanned_erase.mp hname).1 rfl
  | updated hfound hexists hchanged hstorable => exact (mem_unscanned_insert.mp hname).1 rfl
  | confirmed hfound hexists hchanged hforce hscan => exact (mem_unscanned_confirm.mp hname).1 rfl
  | _ => simp_all

theorem Handled.not_mem_of_missing (h : Handled unitTest fd flags s s')
    (hexists : fd.existing = false) : fd.path ∉ s'.db := by
  cases h with
  | absent hfound hexists =>
    rw [Std.ExtTreeMap.mem_iff_isSome_getElem?, hfound]
    simp
  | deleted hfound hexists => simp
  | _ => simp_all

theorem Handled.getElem?_of_ne (h : Handled unitTest fd flags s s') {name : String}
    (hname : name ≠ fd.path) : s'.db[name]? = s.db[name]? := by
  cases h with
  | inserted hfound hexists hscan =>
    rw [Std.ExtTreeMap.getElem?_insert, if_neg fun h => hname (compare_eq_iff.mp h)]
  | deleted hfound hexists =>
    rw [Std.ExtTreeMap.getElem?_erase, if_neg fun h => hname (compare_eq_iff.mp h)]
  | updated hfound hexists hchanged hstorable =>
    rw [Std.ExtTreeMap.getElem?_insert, if_neg fun h => hname (compare_eq_iff.mp h)]
  | confirmed hfound hexists hchanged hforce hscan =>
    rw [confirm, Std.ExtTreeMap.getElem?_modify, if_neg fun h => hname (compare_eq_iff.mp h)]
  | batch _ _ hscan' => simp [hscan] at hscan'
  | confirmedAll _ _ _ _ hscan' => simp [hscan] at hscan'
  | _ => rfl

end Examined

section PhaseTwo

theorem handle_of_not_special {m : Message} (hplain : m.flags.special = false) :
    handle unitTest blockSize true m s =
      match m.fileData with
      | none => .ok s
      | some fd => handleFileData unitTest blockSize fd m.flags s := by
  simp only [Flags.special, Bool.or_eq_false_iff] at hplain
  obtain ⟨⟨⟨hkill, hstart⟩, hmid⟩, hend⟩ := hplain
  cases hfd : m.fileData with
  | none => simp [handle, hkill, hstart, hmid, hend, hfd]
  | some fd => simp [handle, hkill, hstart, hmid, hend, hfd]

/-- A message that is no marker either carries no result or is handled as one. -/
theorem messageStep_cases {m : Message} (hplain : m.flags.special = false)
    (h : messageStep unitTest blockSize s m = some s') :
    (m.fileData = none ∧ s' = s) ∨
      ∃ fd, m.fileData = some fd ∧ Handled unitTest fd m.flags s s' := by
  rw [messageStep_eq_some, handle_of_not_special hplain] at h
  cases hfd : m.fileData with
  | none =>
    rw [hfd] at h
    cases h
    exact .inl ⟨rfl, rfl⟩
  | some fd =>
    rw [hfd] at h
    exact .inr ⟨fd, rfl, (handleFileData_handled h).2⟩

variable {ms : List Message} (hplain : ∀ m ∈ ms, m.flags.special = false)
  (hscan : s.inScan = false) (h : runSteps (messageStep unitTest blockSize) s ms = some s')

include hplain hscan h

/-- The second phase goes on, and less and less is unscanned. -/
theorem phaseTwo_run : s'.inScan = false ∧ unscanned s'.db ⊆ unscanned s.db := by
  induction ms generalizing s with
  | nil =>
    cases h
    exact ⟨hscan, List.Subset.refl _⟩
  | cons m ms ih =>
    obtain ⟨t, ht, hrun⟩ := Option.bind_eq_some_iff.mp h
    have hms : ∀ m ∈ ms, m.flags.special = false := fun m hm => hplain m (List.mem_cons_of_mem _ hm)
    rcases messageStep_cases (hplain m List.mem_cons_self) ht with ⟨-, rfl⟩ | ⟨fd, -, hhandled⟩
    · exact ih hms hscan hrun
    · obtain ⟨hscan', hsubset⟩ := ih hms (hhandled.inScan_eq.trans hscan) hrun
      exact ⟨hscan', List.Subset.trans hsubset hhandled.unscanned_subset⟩

theorem phaseTwo_answered {m : Message} (hm : m ∈ ms) (hfd : m.fileData = some fd)
    (hforce : m.flags.forceUpdate = true) : fd.path ∉ unscanned s'.db := by
  obtain ⟨pre, post, rfl⟩ := List.append_of_mem hm
  obtain ⟨u, v, hpre, hstep, hpost⟩ := runSteps_split h
  have hu := (phaseTwo_run (fun m hm => hplain m (List.mem_append_left _ hm)) hscan hpre).1
  rcases messageStep_cases (hplain m hm) hstep with ⟨hnone, -⟩ | ⟨fd', hfd', hhandled⟩
  · simp [hfd] at hnone
  · obtain rfl := Option.some.inj (hfd.symm.trans hfd')
    have hafter := phaseTwo_run
      (fun m hm => hplain m (List.mem_append_right _ (List.mem_cons_of_mem _ hm)))
      (hhandled.inScan_eq.trans hu) hpost
    intro hname
    exact hhandled.not_unscanned hu hforce (hafter.2 hname)

/-- No other path is touched. -/
theorem phaseTwo_getElem?_of_ne {path : String}
    (hpath : ∀ m ∈ ms, ∀ fd, m.fileData = some fd → fd.path ≠ path) :
    s'.db[path]? = s.db[path]? := by
  induction ms generalizing s with
  | nil =>
    cases h
    rfl
  | cons m ms ih =>
    obtain ⟨t, ht, hrun⟩ := Option.bind_eq_some_iff.mp h
    have hms : ∀ m ∈ ms, m.flags.special = false := fun m hm => hplain m (List.mem_cons_of_mem _ hm)
    have hpaths := fun m hm => hpath m (List.mem_cons_of_mem _ hm)
    rcases messageStep_cases (hplain m List.mem_cons_self) ht with ⟨-, rfl⟩ | ⟨fd, hfd, hhandled⟩
    · exact ih hms hscan hrun hpaths
    · rw [ih hms (hhandled.inScan_eq.trans hscan) hrun hpaths]
      exact hhandled.getElem?_of_ne hscan (hpath m List.mem_cons_self fd hfd).symm

end PhaseTwo

section Cycle

def startscan : Message := { flags := { startscan := true } }

def midscan : Message := { flags := { midscan := true } }

def endscan : Message := { flags := { endscan := true } }

/-- The last result for a path reports that there is no object. -/
def LastMissing (path : String) (ms : List Message) : Prop :=
  ∃ pre m post fd, ms = pre ++ m :: post ∧ m.fileData = some fd ∧ fd.path = path ∧
    fd.existing = false ∧ ∀ m' ∈ post, ∀ fd', m'.fileData = some fd' → fd'.path ≠ path

theorem phaseTwo_missing {ms : List Message} (hplain : ∀ m ∈ ms, m.flags.special = false)
    (hscan : s.inScan = false) (h : runSteps (messageStep unitTest blockSize) s ms = some s')
    {path : String} (hmissing : LastMissing path ms) : path ∉ s'.db := by
  obtain ⟨pre, m, post, fd, rfl, hfd, rfl, hexists, hother⟩ := hmissing
  obtain ⟨u, v, hpre, hstep, hpost⟩ := runSteps_split h
  have hu := (phaseTwo_run (fun m hm => hplain m (List.mem_append_left _ hm)) hscan hpre).1
  have hm : m ∈ pre ++ m :: post := List.mem_append_right _ List.mem_cons_self
  rcases messageStep_cases (hplain m hm) hstep with ⟨hnone, -⟩ | ⟨fd', hfd', hhandled⟩
  · simp [hfd] at hnone
  · obtain rfl := Option.some.inj (hfd.symm.trans hfd')
    have hkept := phaseTwo_getElem?_of_ne
      (fun m hm => hplain m (List.mem_append_right _ (List.mem_cons_of_mem _ hm)))
      (hhandled.inScan_eq.trans hu) hpost hother
    have hgone := hhandled.not_mem_of_missing hu hexists
    rw [Std.ExtTreeMap.mem_iff_isSome_getElem?] at hgone ⊢
    rwa [hkept]

/-- What the end of the first phase queues after these messages. -/
def queuedAfter (unitTest : Bool) (blockSize : ℕ) (db : Table) (ms : List Message) :
    Option (List (String × Flags)) := do
  let t ← runSteps (messageStep unitTest blockSize) { db := db } ms
  let v ← messageStep unitTest blockSize t midscan
  return v.events.drop t.events.length

/-- Every name that has been queued comes back with a result, under the flags it was queued with. -/
def Answered (queued : List (String × Flags)) (ms : List Message) : Prop :=
  ∀ event ∈ queued, event.2.special = false →
    ∃ m ∈ ms, ∃ fd, m.fileData = some fd ∧ fd.path = event.1 ∧ m.flags = event.2

theorem queuedAfter_eq_some {db : Table} {ms : List Message} {t v : State}
    (ht : runSteps (messageStep unitTest blockSize) { db := db } ms = some t)
    (hmid : midScan t = .ok v) :
    queuedAfter unitTest blockSize db ms = some (phaseTwoEvents t.db) := by
  have hstep : messageStep unitTest blockSize t midscan = some v := messageStep_eq_some.mpr hmid
  rw [queuedAfter, ht]
  simp only [Option.bind_eq_bind, Option.bind_some, hstep, events_midScan hmid, List.drop_left]
  rfl

/-- The answer to an unscanned name, unless the name is cut when it is queued. -/
theorem answered_unscanned {db : Table} {ms phaseTwo : List Message} {t v : State}
    (ht : runSteps (messageStep unitTest blockSize) { db := db } ms = some t)
    (hmid : midScan t = .ok v)
    (hback : ∀ queued ∈ queuedAfter unitTest blockSize db ms, Answered queued phaseTwo)
    {name : String} (hname : name ∈ unscanned t.db) (hfree : '\x00' ∉ name.toList) :
    ∃ m ∈ phaseTwo, ∃ fd, m.fileData = some fd ∧ fd.path = name ∧ m.flags.forceUpdate = true := by
  have hmem : (name, ({ chkContent := true, forceUpdate := true } : Flags)) ∈
      phaseTwoEvents t.db := by
    rw [phaseTwoEvents, List.mem_append, List.mem_map]
    exact .inl ⟨name, hname, by rw [columnText_eq_self hfree]⟩
  obtain ⟨m, hm, fd, hfd, hpath, hflags⟩ := hback _ (queuedAfter_eq_some ht hmid) _ hmem rfl
  exact ⟨m, hm, fd, hfd, hpath, by rw [hflags]⟩

/-- A scan accounts for every known object. If a result has come back for every name that the
end of the first phase has queued, then no row is unscanned when the scan ends, unless its name
is cut at a zero when it is queued, there is no row for a path whose last result in the second
phase was that there is no object, and nothing waits to be written. What came before the scan and
in its first phase is arbitrary. -/
theorem scan_accounts_for_all (db : Table) (pre phaseOne phaseTwo : List Message)
    (hplain : ∀ m ∈ phaseTwo, m.flags.special = false)
    (hback : ∀ queued ∈ queuedAfter unitTest blockSize db (pre ++ startscan :: phaseOne),
      Answered queued phaseTwo)
    (h : runSteps (messageStep unitTest blockSize) { db := db }
      ((pre ++ startscan :: phaseOne) ++ midscan :: phaseTwo ++ [endscan]) = some s) :
    (∀ name ∈ unscanned s.db, '\x00' ∈ name.toList) ∧
      (∀ path, LastMissing path phaseTwo → path ∉ s.db) ∧ s.insertSet = ∅ ∧ s.updateQueue = [] := by
  have hwaits := (pending_run h).idle
  obtain ⟨u, hu, hend⟩ := runSteps_concat.mp h
  obtain ⟨t, v, ht, hmid, hrun⟩ := runSteps_split hu
  obtain rfl : { u with scanIsRunning := false } = s := Option.some.inj hend
  have hmid' : midScan t = .ok v := messageStep_eq_some.mp hmid
  have hscan : v.inScan = false := by
    obtain ⟨w, hwritten, rfl⟩ := midScan_eq_ok hmid'
    rw [doInsertSet_eq_ok hwritten]
    rfl
  obtain ⟨hscan', hsubset⟩ := phaseTwo_run hplain hscan hrun
  refine ⟨?_, fun path => phaseTwo_missing hplain hscan hrun, hwaits hscan'⟩
  intro name hname
  by_contra hfree
  have hleft := unscanned_midScan hmid' (hsubset hname)
  obtain ⟨m, hm, fd, hfd, rfl, hforce⟩ := answered_unscanned ht hmid' hback hleft hfree
  exact phaseTwo_answered hplain hscan hrun hm hfd hforce hname

/-- The table of one recorded object. -/
def recordedUnder (name : String) : Table :=
  (∅ : Table).insert name { attributes := appeared.attributes }

/-- The answer that there is no object any more. -/
def gone (name : String) : Message :=
  .ofResult ({ disappeared with path := name }, { chkContent := true, forceUpdate := true })

theorem answered_gone (name : String) : Answered
    [(name, { chkContent := true, forceUpdate := true }), ("", { endscan := true })]
      [gone name] := by
  intro event hevent hplain
  rcases List.mem_pair.mp hevent with rfl | rfl
  · exact ⟨gone name, List.mem_singleton_self _, _, rfl, rfl, rfl⟩
  · cases hplain

/-- A file has been deleted since it was recorded, and another one appears during the scan. -/
theorem scan_accounts_for_all_disappeared :
    ∃ s, runSteps (messageStep false 1000) { db := recordedUnder "/etc/issue" }
        (([] ++ startscan :: [.ofResult (appeared, {})]) ++ midscan :: [gone "/etc/issue"] ++
          [endscan]) = some s ∧
      (∀ name ∈ unscanned s.db, '\x00' ∈ name.toList) ∧
        (∀ path, LastMissing path [gone "/etc/issue"] → path ∉ s.db) ∧
          s.insertSet = ∅ ∧ s.updateQueue = [] := by
  have hreturns : (runSteps (messageStep false 1000) { db := recordedUnder "/etc/issue" }
      (([] ++ startscan :: [.ofResult (appeared, {})]) ++ midscan :: [gone "/etc/issue"] ++
        [endscan])).isSome = true := by decide +kernel
  have hqueued : queuedAfter false 1000 (recordedUnder "/etc/issue")
      ([] ++ startscan :: [.ofResult (appeared, {})]) =
        some [("/etc/issue", { chkContent := true, forceUpdate := true }),
          ("", { endscan := true })] := by decide +kernel
  obtain ⟨s, hs⟩ := Option.isSome_iff_exists.mp hreturns
  refine ⟨s, hs, scan_accounts_for_all (recordedUnder "/etc/issue") [] [.ofResult (appeared, {})]
    [gone "/etc/issue"] (by decide) ?_ hs⟩
  intro queued hmem
  obtain rfl := Option.some.inj (hqueued.symm.trans hmem)
  exact answered_gone "/etc/issue"

/-- A name with a zero is queued without what follows the zero, and the answer to the rest leaves
its row alone. -/
theorem scan_leaves_cut_name :
    ¬ ∀ (unitTest : Bool) (blockSize : ℕ) (db : Table) (pre phaseOne phaseTwo : List Message)
      (s : State), (∀ m ∈ phaseTwo, m.flags.special = false) →
      (∀ queued ∈ queuedAfter unitTest blockSize db (pre ++ startscan :: phaseOne),
        Answered queued phaseTwo) →
      runSteps (messageStep unitTest blockSize) { db := db }
        ((pre ++ startscan :: phaseOne) ++ midscan :: phaseTwo ++ [endscan]) = some s →
      unscanned s.db = [] ∧ ∀ path, LastMissing path phaseTwo → path ∉ s.db := by
  intro hclaim
  have hleft : (runSteps (messageStep false 1000) { db := recordedUnder "/etc/is\x00sue" }
      (([] ++ startscan :: []) ++ midscan :: [gone "/etc/is"] ++ [endscan])).map
        (fun s => unscanned s.db) = some ["/etc/is\x00sue"] := by decide +kernel
  have hqueued : queuedAfter false 1000 (recordedUnder "/etc/is\x00sue") ([] ++ startscan :: []) =
      some [("/etc/is", { chkContent := true, forceUpdate := true }),
        ("", { endscan := true })] := by decide +kernel
  obtain ⟨s, hs, hunscanned⟩ := Option.map_eq_some_iff.mp hleft
  have hback : ∀ queued ∈
      queuedAfter false 1000 (recordedUnder "/etc/is\x00sue") ([] ++ startscan :: []),
        Answered queued [gone "/etc/is"] := by
    intro queued hmem
    obtain rfl := Option.some.inj (hqueued.symm.trans hmem)
    exact answered_gone "/etc/is"
  have hnone := (hclaim false 1000 (recordedUnder "/etc/is\x00sue") [] [] [gone "/etc/is"] s
    (by decide) hback hs).1
  rw [hunscanned] at hnone
  cases hnone

end Cycle

end Ctguard.AlertTask
