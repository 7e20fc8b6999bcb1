import Ctguard.ScanCycle
import Ctguard.ScanMarkers

/-!
# The names for the second phase

A file that is found unchanged counts as scanned once its name is confirmed, but the statement for
that waits until the queue of confirmed names has reached the block size. The end of the first
phase asks for the unscanned rows before it writes what still waits.
-/

namespace Ctguard.AlertTask

variable {unitTest : Bool} {blockSize : ℕ} {s s' t : State} {fd : FileData} {flags : Flags}
  {name path : String}

section Accounts

/-- The message puts a row under the name into the table, changes the row there, or confirms it. -/
def Accounts (unitTest : Bool) (s : State) (m : Message) (s' : State) (name : String) : Prop :=
  (name ∉ s.db ∧ name ∈ s'.db) ∨ ∃ fd row, m.fileData = some fd ∧ fd.path = name ∧
    s.db[name]? = some row ∧ fd.existing = true ∧
      (changed unitTest row.attributes fd = true ∨ m.flags.forceUpdate = true)

/-- One of the messages, handled in order, does so. -/
def Accounted (unitTest : Bool) (blockSize : ℕ) (s : State) (ms : List Message) (name : String) :
    Prop :=
  ∃ pre m post u v, ms = pre ++ m :: post ∧
    runSteps (messageStep unitTest blockSize) s pre = some u ∧
      messageStep unitTest blockSize u m = some v ∧ Accounts unitTest u m v name

theorem not_accounted_nil : ¬ Accounted unitTest blockSize s [] name := by
  rintro ⟨pre, m, post, u, v, hms, -⟩
  simp at hms

theorem accounted_concat {ms : List Message} {m : Message} {u v : State}
    (hu : runSteps (messageStep unitTest blockSize) s ms = some u)
    (hv : messageStep unitTest blockSize u m = some v) :
    Accounted unitTest blockSize s (ms ++ [m]) name ↔
      Accounted unitTest blockSize s ms name ∨ Accounts unitTest u m v name := by
  constructor
  · rintro ⟨pre, m', post, u', v', hms, hu', hv', haccounts⟩
    rcases List.eq_nil_or_concat post with rfl | ⟨post', last, rfl⟩
    · obtain ⟨rfl, hm⟩ := List.append_inj' hms rfl
      obtain rfl := (List.cons.inj hm).1
      obtain rfl := Option.some.inj (hu.symm.trans hu')
      obtain rfl := Option.some.inj (hv.symm.trans hv')
      exact .inr haccounts
    · have hcut : ms ++ [m] = (pre ++ m' :: post') ++ [last] := by simpa using hms
      exact .inl ⟨pre, m', post', u', v', (List.append_inj' hcut rfl).1, hu', hv', haccounts⟩
  · rintro (⟨pre, m', post, u', v', rfl, hu', hv', haccounts⟩ | haccounts)
    · exact ⟨pre, m', post ++ [m], u', v', by simp, hu', hv', haccounts⟩
    · exact ⟨ms, m, [], u, v, rfl, hu, hv, haccounts⟩

end Accounts

section Tables

variable {db : Table}

theorem mem_of_mem_unscanned (h : name ∈ unscanned db) : name ∈ db := by
  obtain ⟨row, hrow, -⟩ := mem_unscanned.mp h
  rw [Std.ExtTreeMap.mem_iff_isSome_getElem?, hrow]
  rfl

theorem mem_unscanned_foldl_confirm {paths : List String} :
    name ∈ unscanned (paths.foldl confirm db) ↔ name ∉ paths ∧ name ∈ unscanned db := by
  induction paths generalizing db with
  | nil => simp
  | cons path paths ih =>
    rw [List.foldl_cons, ih, mem_unscanned_confirm, List.mem_cons, not_or]
    tauto

theorem nodup_unscanned : (unscanned db).Nodup := Std.ExtTreeMap.nodup_keys

theorem mem_unscanned_startScan : name ∈ unscanned (startScan s).db ↔ name ∈ s.db := by
  rw [mem_unscanned, startScan, Std.ExtTreeMap.getElem?_map, Std.ExtTreeMap.mem_iff_isSome_getElem?]
  cases s.db[name]? <;> simp

/-- A batch of inserts leaves the rows alone that there were. -/
theorem unscanned_of_insertAll {fds : List FileData} (h : insertAll fds s = .ok s')
    (hname : name ∈ unscanned s.db) : name ∈ unscanned s'.db := by
  induction fds generalizing s with
  | nil =>
    cases h
    exact hname
  | cons fd fds ih =>
    rw [insertAll] at h
    split at h
    · cases h
    · rename_i db hinsert
      obtain ⟨hfree, rfl⟩ := insertRow_eq_ok hinsert
      refine ih h (mem_unscanned_insert.mpr ⟨?_, hname⟩)
      rintro rfl
      exact hfree (mem_of_mem_unscanned hname)

theorem unscanned_of_doInsertSet (h : doInsertSet s = .ok s') (hname : name ∈ unscanned s.db) :
    name ∈ unscanned s'.db := by
  obtain ⟨t, hrun, rfl⟩ := exists_insertAll h
  have hkept := unscanned_of_insertAll hrun hname
  exact hkept

end Tables

section Step

/-- What is unscanned after the messages of a scan: the names that none of them has accounted for
(`A`), and some of the others, which wait in the queue. -/
structure Unseen (A : String → Prop) (s : State) : Prop where
  missed : ∀ name ∈ s.db, ¬ A name → name ∈ unscanned s.db
  pending : ∀ name ∈ unscanned s.db, A name → name ∈ s.updateQueue
  queued : ∀ name ∈ s.updateQueue, A name

theorem unseen_startScan (hqueue : s.updateQueue = []) : Unseen (fun _ => False) (startScan s) where
  missed name hname _ := by
    have hkept : name ∈ s.db := by simpa [startScan] using hname
    exact mem_unscanned_startScan.mpr hkept
  pending name _ hcontra := hcontra.elim
  queued name hname := by simp [startScan, hqueue] at hname

theorem Unseen.congr {A A' : String → Prop} (h : Unseen A s) (hA : ∀ name, A' name ↔ A name) :
    Unseen A' s where
  missed name hname hnot := h.missed name hname fun hold => hnot ((hA name).mpr hold)
  pending name hname hnew := h.pending name hname ((hA name).mp hnew)
  queued name hname := (hA name).mpr (h.queued name hname)

theorem not_mem_of_getElem? {db : Table} (h : db[name]? = none) : name ∉ db := by
  rw [Std.ExtTreeMap.mem_iff_isSome_getElem?, h]
  simp

variable {A : String → Prop} {m : Message}

theorem accounts_found {row : Row} (hfd : m.fileData = some fd) (hfound : s.db[fd.path]? = some row)
    (hexists : fd.existing = true)
    (hdone : changed unitTest row.attributes fd = true ∨ m.flags.forceUpdate = true) :
    Accounts unitTest s m s' fd.path :=
  .inr ⟨fd, row, hfd, rfl, hfound, hexists, hdone⟩

/-- An unscanned row was there before, so the message has accounted for it only if it has found
the object as it was or different. -/
theorem Accounts.of_unscanned (h : Accounts unitTest s m s' name) (hfd : m.fileData = some fd)
    (hname : name ∈ s.db) : name = fd.path ∧ ∃ row, s.db[fd.path]? = some row ∧
      fd.existing = true ∧ (changed unitTest row.attributes fd = true ∨
        m.flags.forceUpdate = true) := by
  rcases h with ⟨hnew, -⟩ | ⟨fd', row, hfd', rfl, hrow, hexists, hdone⟩
  · exact absurd hname hnew
  · obtain rfl := Option.some.inj (hfd.symm.trans hfd')
    exact ⟨rfl, row, hrow, hexists, hdone⟩

/-- It is enough to look at the unscanned rows and at the queue. -/
theorem Unseen.step (h : Unseen A s) (hsubset : unscanned s'.db ⊆ unscanned s.db)
    (hmissed : ∀ name ∈ unscanned s.db, name ∈ s'.db → name ∉ s.updateQueue →
      ¬ Accounts unitTest s m s' name → name ∈ unscanned s'.db)
    (hpending : ∀ name ∈ unscanned s'.db, name ∈ s.updateQueue ∨ Accounts unitTest s m s' name →
      name ∈ s'.updateQueue)
    (hqueued : ∀ name ∈ s'.updateQueue,
      name ∈ s.updateQueue ∨ Accounts unitTest s m s' name) :
    Unseen (fun name => A name ∨ Accounts unitTest s m s' name) s' where
  missed := by
    intro name hname hnot
    obtain ⟨hA, haccounts⟩ := not_or.mp hnot
    have hold : name ∈ s.db := by
      by_contra hnew
      exact haccounts (.inl ⟨hnew, hname⟩)
    exact hmissed name (h.missed name hold hA) hname (fun hwaits => hA (h.queued name hwaits))
      haccounts
  pending := by
    rintro name hname (hA | haccounts)
    · exact hpending name hname (.inl (h.pending name (hsubset hname) hA))
    · exact hpending name hname (.inr haccounts)
  queued := by
    intro name hname
    rcases hqueued name hname with hold | haccounts
    · exact .inl (h.queued name hold)
    · exact .inr haccounts

theorem Unseen.handled (h : Unseen A s) (hfd : m.fileData = some fd)
    (hs' : Handled unitTest fd m.flags s s') :
    Unseen (fun name => A name ∨ Accounts unitTest s m s' name) s' := by
  have hsubset := hs'.unscanned_subset
  have hold : ∀ name ∈ unscanned s'.db, name ∈ s.db :=
    fun name hname => mem_of_mem_unscanned (hsubset hname)
  -- only a row that is found can be accounted for and stay unscanned
  have hfresh : s.db[fd.path]? = none → ∀ name ∈ unscanned s'.db,
      ¬ Accounts unitTest s m s' name := by
    intro hfound name hname haccounts
    obtain ⟨-, row, hrow, -⟩ := haccounts.of_unscanned hfd (hold name hname)
    simp [hfound] at hrow
  have hsame : ∀ name ∈ unscanned s'.db, Accounts unitTest s m s' name → name = fd.path :=
    fun name hname haccounts => (haccounts.of_unscanned hfd (hold name hname)).1
  cases hs' with
  | absent hfound hexists =>
    refine h.step hsubset (fun name hname _ _ _ => hname) ?_ fun name hname => .inl hname
    exact fun name hname hor => hor.resolve_right (hfresh hfound name hname)
  | inserted hfound hexists hscan =>
    refine h.step hsubset ?_ ?_ fun name hname => .inl hname
    · intro name hname _ _ haccounts
      refine mem_unscanned_insert.mpr ⟨?_, hname⟩
      rintro rfl
      exact not_mem_of_getElem? hfound (mem_of_mem_unscanned hname)
    · exact fun name hname hor => hor.resolve_right (hfresh hfound name hname)
  | waits hfound hexists hscan =>
    refine h.step hsubset (fun name hname _ _ _ => hname) ?_ fun name hname => .inl hname
    exact fun name hname hor => hor.resolve_right (hfresh hfound name hname)
  | batch hfound hexists hscan hwritten =>
    have hqueue : s'.updateQueue = s.updateQueue := by rw [doInsertSet_eq_ok hwritten]
    refine h.step hsubset ?_ ?_ fun name hname => .inl (hqueue ▸ hname)
    · exact fun name hname _ _ _ => unscanned_of_doInsertSet hwritten hname
    · intro name hname hor
      rw [hqueue]
      exact hor.resolve_right (hfresh hfound name hname)
  | deleted hfound hexists =>
    refine h.step hsubset ?_ ?_ fun name hname => .inl hname
    · intro name hname hkept _ _
      refine mem_unscanned_erase.mpr ⟨?_, hname⟩
      rintro rfl
      simp at hkept
    · rintro name hname (hwaits | haccounts)
      · exact hwaits
      · exact absurd (hsame name hname haccounts) (mem_unscanned_erase.mp hname).1
  | updated hfound hexists hchanged hstorable =>
    refine h.step hsubset ?_ ?_ fun name hname => .inl hname
    · intro name hname _ _ haccounts
      refine mem_unscanned_insert.mpr ⟨?_, hname⟩
      rintro rfl
      exact haccounts (accounts_found hfd hfound hexists (.inl hchanged))
    · rintro name hname (hwaits | haccounts)
      · exact hwaits
      · exact absurd (hsame name hname haccounts) (mem_unscanned_insert.mp hname).1
  | unchanged hfound hexists hchanged hforce =>
    refine h.step hsubset (fun name hname _ _ _ => hname) ?_ fun name hname => .inl hname
    rintro name hname (hwaits | haccounts)
    · exact hwaits
    · obtain ⟨-, row, hrow, -, hdone⟩ := haccounts.of_unscanned hfd (hold name hname)
      obtain rfl := Option.some.inj (hfound.symm.trans hrow)
      simp [hchanged, hforce] at hdone
  | confirmed hfound hexists hchanged hforce hscan =>
    refine h.step hsubset ?_ ?_ fun name hname => .inl hname
    · intro name hname _ _ haccounts
      refine mem_unscanned_confirm.mpr ⟨?_, hname⟩
      rintro rfl
      exact haccounts (accounts_found hfd hfound hexists (.inr hforce))
    · rintro name hname (hwaits | haccounts)
      · exact hwaits
      · exact absurd (hsame name hname haccounts) (mem_unscanned_confirm.mp hname).1
  | queued hfound hexists hchanged hforce hscan =>
    refine h.step hsubset (fun name hname _ _ _ => hname) ?_ ?_
    · rintro name hname (hwaits | haccounts)
      · exact List.mem_append_left _ hwaits
      · obtain rfl := hsame name hname haccounts
        exact List.mem_append_right _ List.mem_cons_self
    · intro name hname
      rcases List.mem_append.mp hname with hwaits | hlast
      · exact .inl hwaits
      · obtain rfl := List.mem_singleton.mp hlast
        exact .inr (accounts_found hfd hfound hexists (.inr hforce))
  | confirmedAll hfound hexists hchanged hforce hscan =>
    refine h.step hsubset ?_ ?_ fun name hname => absurd hname List.not_mem_nil
    · intro name hname _ hwaits haccounts
      refine mem_unscanned_foldl_confirm.mpr ⟨?_, hname⟩
      rw [List.mem_append, List.mem_singleton]
      rintro (hmem | rfl)
      · exact hwaits hmem
      · exact haccounts (accounts_found hfd hfound hexists (.inr hforce))
    · intro name hname hor
      have hnot := (mem_unscanned_foldl_confirm.mp hname).1
      rw [List.mem_append, List.mem_singleton, not_or] at hnot
      rcases hor with hwaits | haccounts
      · exact absurd hwaits hnot.1
      · exact absurd (hsame name hname haccounts) hnot.2

end Step

section Run

/-- The messages of a first phase keep apart what is accounted for. -/
theorem unseen_run (hqueue : s.updateQueue = []) {ms : List Message}
    (hplain : ∀ m ∈ ms, m.flags.special = false)
    (h : runSteps (messageStep unitTest blockSize) (startScan s) ms = some t) :
    Unseen (Accounted unitTest blockSize (startScan s) ms) t := by
  induction ms using List.reverseRecOn generalizing t with
  | nil =>
    obtain rfl := Option.some.inj h
    exact (unseen_startScan hqueue).congr fun name => iff_false_intro not_accounted_nil
  | append_singleton ms m ih =>
    obtain ⟨u, hu, hv⟩ := runSteps_concat.mp h
    have hunseen := ih (fun m hm => hplain m (List.mem_append_left _ hm)) hu
    have hm := hplain m (List.mem_append_right _ List.mem_cons_self)
    rcases messageStep_cases hm hv with ⟨hnone, rfl⟩ | ⟨fd, hfd, hhandled⟩
    · refine hunseen.congr fun name => ?_
      rw [accounted_concat hu hv, or_iff_left_iff_imp]
      rintro (⟨hnew, hin⟩ | ⟨fd, row, hfd, -⟩)
      · exact absurd hin hnew
      · simp [hnone] at hfd
    · exact (hunseen.handled hfd hhandled).congr fun name => accounted_concat hu hv

/-- The end of the first phase queues exactly the names in the table whose rows no message since
its start has inserted, changed or confirmed. -/
def QueuesMissed (unitTest : Bool) (blockSize : ℕ) (s : State) (ms : List Message) (t : State) :
    Prop :=
  ∃ names : List String, names.Nodup ∧
    (∀ name, name ∈ names ↔
      name ∈ t.db ∧ ¬ Accounted unitTest blockSize (startScan s) ms name) ∧
    (handle unitTest blockSize true midscan t).state.events = t.events ++
      (names.map (columnText ·, { chkContent := true, forceUpdate := true }) ++
        [("", { endscan := true })])

/-- The names queued at the end of the first phase are exactly those of the rows that it has
neither inserted nor changed nor confirmed if, and only if, no confirmed name that still waits has
an unscanned row. -/
theorem midScan_queues_missed_iff (db : Table) (pre ms : List Message)
    (hplain : ∀ m ∈ ms, m.flags.special = false)
    (hpre : runSteps (messageStep unitTest blockSize) { db := db } pre = some s)
    (hidle : s.inScan = false)
    (h : runSteps (messageStep unitTest blockSize) s (startscan :: ms) = some t) :
    QueuesMissed unitTest blockSize s ms t ↔
      ∀ path ∈ t.updateQueue, ∀ row, t.db[path]? = some row → row.scanned = true := by
  have hqueue := ((pending_run hpre).idle hidle).2
  have hrun : runSteps (messageStep unitTest blockSize) (startScan s) ms = some t := h
  have hunseen := unseen_run hqueue hplain hrun
  constructor
  · rintro ⟨names, hnodup, hnames, hevents⟩ path hpath row hrow
    by_contra hscanned
    rw [Bool.not_eq_true] at hscanned
    have hlength : (unscanned t.db).length = names.length := by
      have hqueued := midScan_events.1.symm.trans hevents
      simpa [phaseTwoEvents] using congrArg List.length hqueued
    -- the missed names are among the unscanned ones, and as many, so they are the same
    have hsub : names ⊆ unscanned t.db := by
      intro name hname
      obtain ⟨hmem, hnot⟩ := (hnames name).mp hname
      exact hunseen.missed name hmem hnot
    have hperm := (hnodup.subperm hsub).perm_of_length_le hlength.le
    have hlisted := hperm.mem_iff.mpr (mem_unscanned.mpr ⟨row, hrow, hscanned⟩)
    exact ((hnames path).mp hlisted).2 (hunseen.queued path hpath)
  · intro hwritten
    refine ⟨unscanned t.db, nodup_unscanned, ?_, midScan_events.1⟩
    intro name
    constructor
    · intro hname
      refine ⟨mem_of_mem_unscanned hname, fun haccounted => ?_⟩
      obtain ⟨row, hrow, hscanned⟩ := mem_unscanned.mp hname
      have hcontra := hwritten name (hunseen.pending name hname haccounted) row hrow
      simp [hscanned] at hcontra
    · rintro ⟨hmem, hnot⟩
      exact hunseen.missed name hmem hnot

/-- A file that has not changed since it was recorded. -/
def recordedTable : Table := (∅ : Table).insert "/etc/motd" { attributes := appeared.attributes }

def confirmation : Message := .ofResult (appeared, { forceUpdate := true })

theorem midScan_queues_missed_iff_confirmation :
    ∃ t, runSteps (messageStep false 1) { db := recordedTable } [startscan, confirmation] = some t ∧
      (QueuesMissed false 1 { db := recordedTable } [confirmation] t ↔
        ∀ path ∈ t.updateQueue, ∀ row, t.db[path]? = some row → row.scanned = true) := by
  have hreturns : (runSteps (messageStep false 1) { db := recordedTable }
      [startscan, confirmation]).isSome = true := by decide +kernel
  obtain ⟨t, ht⟩ := Option.isSome_iff_exists.mp hreturns
  exact ⟨t, ht, midScan_queues_missed_iff recordedTable [] [confirmation] (by decide) rfl rfl ht⟩

/-- With a block size of 1000, the only file is confirmed, and queued nevertheless. -/
theorem midScan_queues_confirmed :
    ¬ ∀ (unitTest : Bool) (blockSize : ℕ) (db : Table) (ms : List Message) (t : State),
      (∀ m ∈ ms, m.flags.special = false) →
      runSteps (messageStep unitTest blockSize) { db := db } (startscan :: ms) = some t →
      QueuesMissed unitTest blockSize { db := db } ms t := by
  intro hclaim
  have hrun : (runSteps (messageStep false 1000) { db := recordedTable }
      [startscan, confirmation]).map (fun t => (t.db.keys, unscanned t.db)) =
        some (["/etc/motd"], ["/etc/motd"]) := by decide +kernel
  have hfound : (startScan { db := recordedTable }).db["/etc/motd"]?.isSome = true := by
    decide +kernel
  obtain ⟨t, ht, htables⟩ := Option.map_eq_some_iff.mp hrun
  obtain ⟨hkeys, hunscanned⟩ := Prod.mk.inj htables
  obtain ⟨row, hrow⟩ := Option.isSome_iff_exists.mp hfound
  obtain ⟨names, -, hnames, hevents⟩ :=
    hclaim false 1000 recordedTable [confirmation] t (by decide) ht
  have haccounted : Accounted false 1000 (startScan { db := recordedTable }) [confirmation]
      "/etc/motd" :=
    ⟨[], confirmation, [], _, t, rfl, rfl, ht, .inr ⟨appeared, row, rfl, rfl, hrow, rfl, .inr rfl⟩⟩
  have hlength : names.length = 1 := by
    have hqueued := midScan_events.1.symm.trans hevents
    simpa [phaseTwoEvents, hunscanned, eq_comm] using congrArg List.length hqueued
  obtain ⟨name, rfl⟩ := List.length_eq_one_iff.mp hlength
  obtain ⟨hmem, hnot⟩ := (hnames name).mp List.mem_cons_self
  rw [← Std.ExtTreeMap.mem_keys, hkeys, List.mem_singleton] at hmem
  rw [hmem] at hnot
  exact hnot haccounted

end Run

end Ctguard.AlertTask
