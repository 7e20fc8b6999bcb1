import Ctguard.AlertTask
import Ctguard.StepRuns
import Ctguard.Text
import Mathlib.Logic.Function.Basic

/-!
# What batching during a scan changes

A table says of some names what their objects are like. One message examines the object under
one name. Outside a scan `alert_task` does just that to the table. During a scan it does it to
the table into which the waiting objects would be written now, unless the path of the message
waits itself: then the object is replaced as a whole, and a deletion is not noticed.
-/

namespace Ctguard.AlertTask

variable {unitTest : Bool} {blockSize : ℕ} {s s' : State} {fd : FileData} {flags : Flags}

section Rows

/-- What the rows say about the objects. -/
abbrev Rows := String → Option Attributes

def rows (db : Table) : Rows := fun name => db[name]?.map Row.attributes

/-- SQLite takes the values of the row. -/
def storable (path : String) (a : Attributes) : Bool :=
  match bindInsert path a with
  | .ok () => true
  | .error _ => false

theorem bindInsert_eq_ok {path : String} {a : Attributes} :
    bindInsert path a = .ok () ↔ storable path a = true := by
  rw [storable]
  cases bindInsert path a <;> simp

theorem bind_eq_ok {x : Except String Unit} {f : Unit → Except String Unit} :
    (x >>= f) = .ok () ↔ x = .ok () ∧ f () = .ok () := by
  rw [Ctguard.bind_eq_ok]
  exact ⟨fun ⟨_, h⟩ => h, fun h => ⟨(), h⟩⟩

/-- Both statements bind the same values, in another order. -/
theorem bindUpdate_eq_ok {path : String} {a : Attributes} :
    bindUpdate path a = .ok () ↔ storable path a = true := by
  rw [← bindInsert_eq_ok]
  simp only [bindUpdate, bindInsert, bind_eq_ok]
  tauto

/-- What an examination makes of an entry. There is none if it ends with an exception. -/
def entry (unitTest : Bool) (fd : FileData) : Option Attributes → Option (Option Attributes)
  | some a =>
    if fd.existing = false then some none
    else if changed unitTest a fd then
      if storable fd.path (a.updated fd) then some (some (a.updated fd)) else none
    else some (some a)
  | none =>
    if fd.existing = false then some none
    else if storable fd.path fd.attributes then some (some fd.attributes)
    else none

/-- The examination of one object. -/
def examine (unitTest : Bool) (fd : FileData) (r : Rows) : Option Rows :=
  match bindText fd.path with
  | .ok () => (entry unitTest fd (r fd.path)).map (Function.update r fd.path)
  | .error _ => none

theorem compare_eq_iff {name n : String} : compare name n = .eq ↔ n = name := by
  rw [Std.LawfulEqCmp.compare_eq_iff_eq]
  exact eq_comm

theorem rows_insert (db : Table) (name : String) (a : Attributes) (scanned : Bool) :
    rows (db.insert name ⟨a, scanned⟩) = Function.update (rows db) name (some a) := by
  funext n
  rw [rows, Std.ExtTreeMap.getElem?_insert, Function.update_apply]
  simp only [compare_eq_iff]
  split <;> rfl

theorem rows_erase (db : Table) (name : String) :
    rows (db.erase name) = Function.update (rows db) name none := by
  funext n
  rw [rows, Std.ExtTreeMap.getElem?_erase, Function.update_apply]
  simp only [compare_eq_iff]
  split <;> rfl

@[simp] theorem rows_confirm (db : Table) (path : String) : rows (confirm db path) = rows db := by
  funext n
  rw [rows, confirm, Std.ExtTreeMap.getElem?_modify, rows]
  split
  · rename_i heq
    rw [compare_eq_iff.mp heq, Option.map_map]
    rfl
  · rfl

@[simp] theorem rows_startScan (s : State) : rows (startScan s).db = rows s.db := by
  funext n
  simp only [rows, startScan, Std.ExtTreeMap.getElem?_map, Option.map_map]
  rfl

theorem mem_iff_rows {db : Table} {name : String} : name ∈ db ↔ rows db name ≠ none := by
  rw [rows, Std.ExtTreeMap.mem_iff_isSome_getElem?]
  cases db[name]? <;> simp

theorem rows_doUpdateQueue (s : State) : rows (doUpdateQueue s).db = rows s.db := by
  rw [doUpdateQueue]
  induction s.updateQueue generalizing s with
  | nil => rfl
  | cons path paths ih =>
    rw [List.foldl_cons]
    exact (ih { s with db := confirm s.db path }).trans (rows_confirm s.db path)

end Rows

section Insert

variable {db : Table}

theorem insertRow_of_free (hstorable : storable fd.path fd.attributes = true)
    (hfree : fd.path ∉ db) :
    insertRow fd db = .ok (db.insert fd.path { attributes := fd.attributes }) := by
  rw [insertRow, bindInsert_eq_ok.mpr hstorable]
  simp [hfree, pure, Except.pure, bind, Except.bind]

theorem insertRow_of_not_storable (db : Table)
    (h : storable fd.path fd.attributes = false) :
    ∃ what, insertRow fd db = .error what := by
  rw [storable] at h
  rw [insertRow]
  cases hbind : bindInsert fd.path fd.attributes with
  | error what => exact ⟨what, rfl⟩
  | ok u => simp [hbind] at h

end Insert

section Immediate

/-- Outside a scan a message examines its object. -/
theorem handleFileData_immediate (hscan : s.inScan = false) :
    (handleFileData unitTest blockSize fd flags s).toOption.map (fun s' => rows s'.db) =
      examine unitTest fd (rows s.db) := by
  rw [handleFileData, examine]
  cases bindText fd.path with
  | error what => rfl
  | ok u =>
    have hrow : rows s.db fd.path = s.db[fd.path]?.map Row.attributes := rfl
    simp only [hrow]
    cases hfound : s.db[fd.path]? with
    | none =>
      have hnone : Function.update (rows s.db) fd.path none = rows s.db := by
        rw [← Function.update_eq_self fd.path (rows s.db), hrow, hfound]
        simp
      cases hexists : fd.existing with
      | false => simp [entry, hexists, hnone, Except.toOption]
      | true =>
        have hfree : fd.path ∉ s.db := by rw [mem_iff_rows, hrow, hfound]; simp
        simp only [entry, hexists, insertNew, hscan, Option.map_none]
        cases hstorable : storable fd.path fd.attributes with
        | false =>
          obtain ⟨what, hinsert⟩ := insertRow_of_not_storable s.db hstorable
          simp [hinsert, Except.toOption]
        | true =>
          rw [insertRow_of_free hstorable hfree]
          simp [Except.toOption, rows_insert]
    | some row =>
      have hsome : Function.update (rows s.db) fd.path (some row.attributes) = rows s.db := by
        rw [← Function.update_eq_self fd.path (rows s.db), hrow, hfound]
        simp
      cases hexists : fd.existing with
      | false => simp [entry, hexists, Except.toOption, rows_erase]
      | true =>
        simp only [entry, hexists, compareRow, hscan, Option.map_some]
        cases hchanged : changed unitTest row.attributes fd with
        | true =>
          cases hbind : bindUpdate fd.path (row.attributes.updated fd) with
          | error what =>
            have hnot : storable fd.path (row.attributes.updated fd) = false := by
              rw [← Bool.not_eq_true, ← bindUpdate_eq_ok, hbind]
              simp
            simp [hnot, Except.toOption]
          | ok u =>
            have hstorable := bindUpdate_eq_ok.mp hbind
            simp [hstorable, Except.toOption, rows_insert]
        | false =>
          cases flags.forceUpdate <;> simp [Except.toOption, hsome]

end Immediate

section Waiting

/-- SQLite takes the values of all waiting objects. -/
def allStorable (s : State) : Bool :=
  s.insertSet.toList.all fun e => storable e.2.path e.2.attributes

theorem allStorable_iff : allStorable s = true ↔
    ∀ (name : String) (p : FileData), s.insertSet[name]? = some p →
      storable p.path p.attributes = true := by
  simp only [allStorable, List.all_eq_true, Prod.forall,
    Std.ExtTreeMap.mem_toList_iff_getElem?_eq_some]

/-- The rows if the waiting objects were written now. -/
def writtenRows (s : State) : Rows := fun name =>
  match s.insertSet[name]? with
  | some p => some p.attributes
  | none => rows s.db name

/-- The rows that the end of the first phase would leave. -/
def view (s : State) : Option Rows := if allStorable s then some (writtenRows s) else none

/-- Objects wait under their own names, which have no row. -/
def Waits (s : State) : Prop :=
  ∀ (name : String) (p : FileData), s.insertSet[name]? = some p →
    p.path = name ∧ bindText name = .ok () ∧ rows s.db name = none

theorem writtenRows_congr (hset : s'.insertSet = s.insertSet) (hrows : rows s'.db = rows s.db) :
    writtenRows s' = writtenRows s := by
  funext name
  simp only [writtenRows, hset, hrows]

theorem writtenRows_of_empty (h : s.insertSet = ∅) : writtenRows s = rows s.db := by
  funext name
  simp [writtenRows, h]

theorem writtenRows_update {name : String} {v : Option Attributes}
    (hname : s.insertSet[name]? = none) (hset : s'.insertSet = s.insertSet)
    (hrows : rows s'.db = Function.update (rows s.db) name v) :
    writtenRows s' = Function.update (writtenRows s) name v := by
  funext n
  by_cases h : n = name
  · simp [writtenRows, h, hset, hname, hrows]
  · simp only [writtenRows, hset, hrows, Function.update_of_ne h]

theorem view_congr (hset : s'.insertSet = s.insertSet) (hrows : rows s'.db = rows s.db) :
    view s' = view s := by
  rw [view, view, allStorable, allStorable, writtenRows_congr hset hrows, hset]

theorem view_of_empty (h : s.insertSet = ∅) : view s = some (rows s.db) := by
  simp [view, allStorable, writtenRows_of_empty h, h]

/-- A change of a row under a name that does not wait. -/
theorem view_update {name : String} {v : Option Attributes} (hname : s.insertSet[name]? = none)
    (hset : s'.insertSet = s.insertSet)
    (hrows : rows s'.db = Function.update (rows s.db) name v) :
    view s' = (view s).map fun r => Function.update r name v := by
  rw [view, view, allStorable, allStorable, writtenRows_update hname hset hrows, hset]
  split <;> rfl

/-- SQLite takes the values of the waiting objects under other names. -/
def OthersStorable (s : State) (name : String) : Prop :=
  ∀ n p, n ≠ name → s.insertSet[n]? = some p → storable p.path p.attributes = true

theorem getElem?_insertSet (name n : String) (p : FileData) :
    (s.insertSet.insert name p)[n]? = if n = name then some p else s.insertSet[n]? := by
  rw [Std.ExtTreeMap.getElem?_insert]
  simp only [compare_eq_iff]

theorem allStorable_insert {name : String} {p : FileData}
    (hset : s'.insertSet = s.insertSet.insert name p) :
    allStorable s' = true ↔ OthersStorable s name ∧ storable p.path p.attributes = true := by
  rw [allStorable_iff, hset]
  simp only [getElem?_insertSet]
  constructor
  · intro h
    refine ⟨?_, h name p (by simp)⟩
    intro n q hn hq
    exact h n q (by simpa [hn] using hq)
  · rintro ⟨hothers, hp⟩ n q hq
    by_cases hn : n = name
    · rw [if_pos hn, Option.some.injEq] at hq
      exact hq ▸ hp
    · rw [if_neg hn] at hq
      exact hothers n q hn hq

theorem allStorable_of_waiting {name : String} {p : FileData}
    (hp : s.insertSet[name]? = some p) :
    allStorable s = true ↔ OthersStorable s name ∧ storable p.path p.attributes = true := by
  rw [allStorable_iff]
  constructor
  · intro h
    exact ⟨fun n q _ hq => h n q hq, h name p hp⟩
  · rintro ⟨hothers, hstorable⟩ n q hq
    by_cases hn : n = name
    · rw [hn, hp, Option.some.injEq] at hq
      exact hq ▸ hstorable
    · exact hothers n q hn hq

theorem allStorable_of_not_waiting {name : String} (hname : s.insertSet[name]? = none) :
    allStorable s = true ↔ OthersStorable s name := by
  rw [allStorable_iff]
  constructor
  · intro h n q _ hq
    exact h n q hq
  · intro hothers n q hq
    have hn : n ≠ name := by
      rintro rfl
      simp [hname] at hq
    exact hothers n q hn hq

theorem writtenRows_insert {name : String} {p : FileData}
    (hset : s'.insertSet = s.insertSet.insert name p) (hrows : rows s'.db = rows s.db) :
    writtenRows s' = Function.update (writtenRows s) name (some p.attributes) := by
  funext n
  by_cases h : n = name
  · simp [writtenRows, h, hset]
  · simp only [writtenRows, hset, hrows, Function.update_of_ne h, getElem?_insertSet, if_neg h]

end Waiting

section Writing

/-- The inserts succeed if SQLite takes all values, given that no name has a row. They change
the rows of these names only. -/
theorem insertAll_spec (fds : List FileData) (s : State)
    (hpaths : fds.Pairwise fun p q => p.path ≠ q.path)
    (hfree : ∀ p ∈ fds, rows s.db p.path = none) :
    (fds.all (fun p => storable p.path p.attributes) = false →
      (insertAll fds s).toOption = none) ∧
    (fds.all (fun p => storable p.path p.attributes) = true →
      ∃ s', insertAll fds s = .ok s' ∧
        (∀ p ∈ fds, rows s'.db p.path = some p.attributes) ∧
        ∀ name, (∀ p ∈ fds, p.path ≠ name) → rows s'.db name = rows s.db name) := by
  induction fds generalizing s with
  | nil => simp [insertAll]
  | cons fd fds ih =>
    obtain ⟨hfd, hfds⟩ := List.pairwise_cons.mp hpaths
    have hnew : fd.path ∉ s.db := fun hmem => mem_iff_rows.mp hmem (hfree fd List.mem_cons_self)
    have hfree' : ∀ p ∈ fds, rows (s.db.insert fd.path ⟨fd.attributes, true⟩) p.path = none := by
      intro p hp
      rw [rows_insert, Function.update_of_ne (hfd p hp).symm]
      exact hfree p (List.mem_cons_of_mem _ hp)
    obtain ⟨hnone, hsome⟩ := ih { s with
      db := s.db.insert fd.path ⟨fd.attributes, true⟩, alerts := s.alerts ++ [.new fd] } hfds hfree'
    rw [insertAll, List.all_cons]
    cases hstorable : storable fd.path fd.attributes with
    | false =>
      obtain ⟨what, hinsert⟩ := insertRow_of_not_storable s.db hstorable
      simp [hinsert, Except.toOption]
    | true =>
      rw [insertRow_of_free hstorable hnew, Bool.true_and]
      refine ⟨hnone, ?_⟩
      intro hall
      obtain ⟨s', hrun, hwritten, hkept⟩ := hsome hall
      refine ⟨s', hrun, ?_, ?_⟩
      · intro p hp
        rcases List.mem_cons.mp hp with rfl | hp
        · rw [hkept p.path (fun q hq => (hfd q hq).symm), rows_insert, Function.update_self]
        · exact hwritten p hp
      · intro name hname
        rw [hkept name (fun q hq => hname q (List.mem_cons_of_mem _ hq)), rows_insert,
          Function.update_of_ne (hname fd List.mem_cons_self).symm]

/-- The inserts change the rows and queue alerts. -/
theorem insertAll_eq_ok {fds : List FileData} (h : insertAll fds s = .ok s') :
    s' = { s with db := s'.db, alerts := s'.alerts } := by
  induction fds generalizing s with
  | nil =>
    cases h
    rfl
  | cons fd fds ih =>
    rw [insertAll] at h
    split at h
    · cases h
    · have hs' := ih h
      exact hs'

/-- The waiting objects, in the order in which they will be written. -/
abbrev waiting (s : State) : List FileData := s.insertSet.toList.map Prod.snd

theorem Waits.mem_waiting (h : Waits s) {p : FileData} :
    p ∈ waiting s ↔ s.insertSet[p.path]? = some p := by
  constructor
  · intro hp
    obtain ⟨⟨name, q⟩, hmem, rfl⟩ := List.mem_map.mp hp
    have hq := Std.ExtTreeMap.mem_toList_iff_getElem?_eq_some.mp hmem
    rwa [(h name q hq).1]
  · intro hp
    exact List.mem_map.mpr ⟨(p.path, p), Std.ExtTreeMap.mem_toList_iff_getElem?_eq_some.mpr hp, rfl⟩

theorem Waits.waiting_pairwise (h : Waits s) :
    (waiting s).Pairwise fun p q => p.path ≠ q.path := by
  have hkeyed : ∀ e ∈ s.insertSet.toList, e.2.path = e.1 := by
    rintro ⟨name, p⟩ hmem
    exact (h name p (Std.ExtTreeMap.mem_toList_iff_getElem?_eq_some.mp hmem)).1
  rw [List.pairwise_map]
  refine List.Pairwise.imp_of_mem ?_ (Std.ExtTreeMap.distinct_keys_toList (t := s.insertSet))
  intro e e' he he' hkeys heq
  rw [hkeyed e he, hkeyed e' he'] at heq
  exact hkeys (Std.LawfulEqCmp.compare_eq_iff_eq.mpr heq)

/-- Writing the waiting objects leaves the rows that were in view. -/
theorem doInsertSet_view (h : Waits s) :
    (doInsertSet s).toOption.map (fun s' => rows s'.db) = view s := by
  have hfree : ∀ p ∈ waiting s, rows s.db p.path = none :=
    fun p hp => (h p.path p (h.mem_waiting.mp hp)).2.2
  obtain ⟨hnone, hsome⟩ := insertAll_spec _ s h.waiting_pairwise hfree
  have hall : (waiting s).all (fun p => storable p.path p.attributes) = allStorable s := by
    rw [List.all_map]
    rfl
  rw [hall] at hnone hsome
  rw [view, doInsertSet]
  cases hstorable : allStorable s with
  | false =>
    have herror := hnone hstorable
    cases hrun : insertAll (waiting s) s with
    | error e => rfl
    | ok r => simp [hrun, Except.toOption] at herror
  | true =>
    obtain ⟨s', hrun, hwritten, hkept⟩ := hsome hstorable
    rw [hrun]
    have hrows : rows s'.db = writtenRows s := by
      funext name
      rw [writtenRows]
      cases hname : s.insertSet[name]? with
      | some p =>
        obtain rfl := (h name p hname).1
        exact hwritten p (h.mem_waiting.mpr hname)
      | none =>
        apply hkept name
        rintro p hp rfl
        simp [h.mem_waiting.mp hp] at hname
    exact congrArg some hrows

theorem exists_insertAll (h : doInsertSet s = .ok s') :
    ∃ t, insertAll (waiting s) s = .ok t ∧ s' = { t with insertSet := ∅ } := by
  rw [doInsertSet] at h
  obtain ⟨t, hrun, h⟩ := Ctguard.bind_eq_ok.mp h
  exact ⟨t, hrun, (Except.ok.inj h).symm⟩

/-- Writing the waiting objects changes nothing but rows, alerts and the set. -/
theorem doInsertSet_eq_ok (h : doInsertSet s = .ok s') :
    s' = { s with db := s'.db, alerts := s'.alerts, insertSet := ∅ } := by
  obtain ⟨t, hrun, rfl⟩ := exists_insertAll h
  rw [insertAll_eq_ok hrun]

theorem rows_doInsertSet (h : Waits s) (hs' : doInsertSet s = .ok s') :
    rows s'.db = writtenRows s := by
  have hview := doInsertSet_view h
  rw [hs', view] at hview
  split at hview
  · exact Option.some.inj hview
  · cases hview

/-- Writing the waiting objects changes none of the rows among which they are counted. -/
theorem writtenRows_doInsertSet (h : Waits s) (hs' : doInsertSet s = .ok s') :
    writtenRows s' = writtenRows s := by
  have hempty : s'.insertSet = ∅ := by rw [doInsertSet_eq_ok hs']
  rw [writtenRows_of_empty hempty, rows_doInsertSet h hs']

end Writing

section Scanning

/-- The state of a scan in its first phase. -/
structure Scanning (s : State) : Prop where
  inScan : s.inScan = true
  waits : Waits s

theorem Waits.congr (h : Waits s) (hset : s'.insertSet = s.insertSet)
    (hrows : rows s'.db = rows s.db) : Waits s' := by
  intro name p hp
  rw [hset] at hp
  rw [hrows]
  exact h name p hp

theorem Waits.update (h : Waits s) {name : String} {v : Option Attributes}
    (hname : s.insertSet[name]? = none) (hset : s'.insertSet = s.insertSet)
    (hrows : rows s'.db = Function.update (rows s.db) name v) : Waits s' := by
  intro n p hp
  rw [hset] at hp
  obtain ⟨hpath, hbound, hfree⟩ := h n p hp
  have hn : n ≠ name := by
    rintro rfl
    simp [hname] at hp
  rw [hrows, Function.update_of_ne hn]
  exact ⟨hpath, hbound, hfree⟩

theorem Waits.of_empty (h : s.insertSet = ∅) : Waits s := by
  intro name p hp
  simp [h] at hp

theorem Waits.insert (h : Waits s) (hbound : bindText fd.path = .ok ())
    (hfree : rows s.db fd.path = none) (hset : s'.insertSet = s.insertSet.insert fd.path fd)
    (hrows : rows s'.db = rows s.db) : Waits s' := by
  intro name p hp
  rw [hset, getElem?_insertSet] at hp
  rw [hrows]
  split at hp
  · rename_i hname
    cases hp
    rw [hname]
    exact ⟨rfl, hbound, hfree⟩
  · exact h name p hp

/-- A batch that is written because it is full leaves the rows that were in view. -/
theorem view_doInsertSet (h : Waits s) : (doInsertSet s).toOption.bind view = view s := by
  rw [← doInsertSet_view h]
  cases hrun : doInsertSet s with
  | error e => rfl
  | ok s' =>
    apply view_of_empty
    rw [doInsertSet_eq_ok hrun]

theorem view_insertNew (hscan : s.inScan = true)
    (hwaits : Waits { s with insertSet := s.insertSet.insert fd.path fd }) :
    (insertNew blockSize fd s).toOption.bind view =
      view { s with insertSet := s.insertSet.insert fd.path fd } := by
  simp only [insertNew, hscan, if_true]
  split
  · exact view_doInsertSet hwaits
  · rfl

theorem view_bind_self {name : String} {v : Option Attributes} (h : writtenRows s name = v) :
    (view s).bind (fun r => some (Function.update r name v)) = view s := by
  rw [view]
  split
  · rw [Option.bind_some, ← h, Function.update_eq_self]
  · rfl

theorem view_compareRow (hscan : s.inScan = true) (hname : s.insertSet[fd.path]? = none)
    (hexists : fd.existing = true) {row : Row} (hfound : s.db[fd.path]? = some row) :
    (compareRow unitTest blockSize fd flags row s).toOption.bind view =
      (view s).bind fun r =>
        (entry unitTest fd (some row.attributes)).map (Function.update r fd.path) := by
  have hrow : writtenRows s fd.path = some row.attributes := by
    rw [writtenRows, hname]
    simp [rows, hfound]
  rw [compareRow]
  cases hchanged : changed unitTest row.attributes fd with
  | true =>
    simp only [if_true]
    cases hbind : bindUpdate fd.path (row.attributes.updated fd) with
    | error what =>
      have hnot : storable fd.path (row.attributes.updated fd) = false := by
        rw [← Bool.not_eq_true, ← bindUpdate_eq_ok, hbind]
        simp
      have hentry : entry unitTest fd (some row.attributes) = none := by
        simp [entry, hexists, hchanged, hnot]
      rw [hentry]
      cases view s <;> rfl
    | ok u =>
      have hentry : entry unitTest fd (some row.attributes) =
          some (some (row.attributes.updated fd)) := by
        simp [entry, hexists, hchanged, bindUpdate_eq_ok.mp hbind]
      rw [hentry]
      simp only [Except.toOption, Option.bind_some, Option.map_some]
      refine Eq.trans (view_update hname rfl (rows_insert s.db fd.path _ true)) ?_
      cases view s <;> rfl
  | false =>
    have hentry : entry unitTest fd (some row.attributes) = some (some row.attributes) := by
      simp [entry, hexists, hchanged]
    rw [hentry]
    simp only [Option.map_some, view_bind_self hrow, hscan, if_true, Bool.false_eq_true, if_false]
    cases flags.forceUpdate with
    | false => rfl
    | true =>
      simp only [if_true, Except.toOption, Option.bind_some]
      split
      · exact view_congr rfl (rows_doUpdateQueue _)
      · exact view_congr rfl rfl

/-- An object that waits from now on is seen as if it had been inserted. -/
theorem view_waitsNow (hname : s.insertSet[fd.path]? = none) (hexists : fd.existing = true) :
    view { s with insertSet := s.insertSet.insert fd.path fd } =
      (view s).bind fun r => (entry unitTest fd none).map (Function.update r fd.path) := by
  by_cases hothers : OthersStorable s fd.path
  · have hall := (allStorable_of_not_waiting hname).mpr hothers
    cases hstorable : storable fd.path fd.attributes with
    | false =>
      have hnot : ¬ allStorable { s with insertSet := s.insertSet.insert fd.path fd } = true :=
        fun hcontra => by simpa [hstorable] using ((allStorable_insert rfl).mp hcontra).2
      simp [view, hnot, hall, entry, hexists, hstorable]
    | true =>
      have hall' : allStorable { s with insertSet := s.insertSet.insert fd.path fd } = true :=
        (allStorable_insert rfl).mpr ⟨hothers, hstorable⟩
      have hwritten : writtenRows { s with insertSet := s.insertSet.insert fd.path fd } =
          Function.update (writtenRows s) fd.path (some fd.attributes) :=
        writtenRows_insert rfl rfl
      simp [view, hall, hall', hwritten, entry, hexists, hstorable]
  · have hnot : ¬ allStorable s = true :=
      fun hcontra => hothers ((allStorable_of_not_waiting hname).mp hcontra)
    have hnot' : ¬ allStorable { s with insertSet := s.insertSet.insert fd.path fd } = true :=
      fun hcontra => hothers ((allStorable_insert rfl).mp hcontra).1
    simp [view, hnot, hnot']

/-- With a path that does not wait, a message examines its object in the rows in view. -/
theorem view_handleFileData (h : Scanning s) (hname : s.insertSet[fd.path]? = none) :
    (handleFileData unitTest blockSize fd flags s).toOption.bind view =
      (view s).bind (examine unitTest fd) := by
  rw [handleFileData]
  cases hbound : bindText fd.path with
  | error what =>
    have hnone : examine unitTest fd = fun _ => none := by
      funext r
      rw [examine, hbound]
    rw [hnone]
    cases view s <;> rfl
  | ok u =>
    have hrow : writtenRows s fd.path = s.db[fd.path]?.map Row.attributes := by
      rw [writtenRows, hname]
      rfl
    have hexamine : (view s).bind (examine unitTest fd) = (view s).bind fun r =>
        (entry unitTest fd (s.db[fd.path]?.map Row.attributes)).map
          (Function.update r fd.path) := by
      rw [view]
      split
      · simp only [Option.bind_some, examine, hbound, hrow]
      · rfl
    rw [hexamine]
    cases hfound : s.db[fd.path]? with
    | none =>
      rw [hfound] at hrow
      cases hexists : fd.existing with
      | false =>
        have hentry : entry unitTest fd none = some none := by simp [entry, hexists]
        rw [Option.map_none, hentry]
        exact (view_bind_self hrow).symm
      | true =>
        have hfree : rows s.db fd.path = none := by simp [rows, hfound]
        have hwaits : Waits { s with insertSet := s.insertSet.insert fd.path fd } :=
          h.waits.insert hbound hfree rfl rfl
        simp only [if_true, view_insertNew h.inScan hwaits, Option.map_none]
        exact view_waitsNow hname hexists
    | some row =>
      cases hexists : fd.existing with
      | false =>
        have hentry : entry unitTest fd (some row.attributes) = some none := by
          simp [entry, hexists]
        simp only [Bool.false_eq_true, if_false, Except.toOption, Option.bind_some,
          Option.map_some, hentry]
        refine Eq.trans (view_update hname rfl (rows_erase s.db fd.path)) ?_
        cases view s <;> rfl
      | true =>
        simp only [if_true, Option.map_some]
        exact view_compareRow h.inScan hname hexists hfound

/-- The first phase goes on behind every message that does not end the task. -/
theorem Scanning.handleFileData (h : Scanning s)
    (hrun : handleFileData unitTest blockSize fd flags s = .ok s') : Scanning s' := by
  rw [AlertTask.handleFileData] at hrun
  cases hbound : bindText fd.path with
  | error what => simp [hbound] at hrun
  | ok u =>
    simp only [hbound] at hrun
    cases hfound : s.db[fd.path]? with
    | none =>
      have hfree : rows s.db fd.path = none := by simp [rows, hfound]
      simp only [hfound, insertNew, h.inScan, if_true] at hrun
      split at hrun
      · have hwaits : Waits { s with insertSet := s.insertSet.insert fd.path fd } :=
          h.waits.insert hbound hfree rfl rfl
        split at hrun
        · rw [doInsertSet_eq_ok hrun]
          exact ⟨rfl, .of_empty rfl⟩
        · cases hrun
          exact ⟨rfl, hwaits⟩
      · cases hrun
        exact h
    | some row =>
      have hname : s.insertSet[fd.path]? = none := by
        cases hp : s.insertSet[fd.path]? with
        | none => rfl
        | some p =>
          have hfree := (h.waits fd.path p hp).2.2
          simp [rows, hfound] at hfree
      simp only [hfound, compareRow, h.inScan, if_true] at hrun
      split at hrun
      · split at hrun
        · split at hrun
          · cases hrun
          · cases hrun
            exact ⟨rfl, h.waits.update hname rfl (rows_insert s.db fd.path _ true)⟩
        · split at hrun
          · split at hrun
            · cases hrun
              exact ⟨rfl, h.waits.congr rfl (rows_doUpdateQueue _)⟩
            · cases hrun
              exact ⟨rfl, h.waits.congr rfl rfl⟩
          · cases hrun
            exact h
      · cases hrun
        exact ⟨rfl, h.waits.update hname rfl (rows_erase s.db fd.path)⟩

/-- With a path that waits, a message replaces the waiting object or is without effect. -/
theorem view_handleFileData_waiting (h : Scanning s) {p : FileData}
    (hp : s.insertSet[fd.path]? = some p) :
    (handleFileData unitTest blockSize fd flags s).toOption.bind view =
      if fd.existing then view { s with insertSet := s.insertSet.insert fd.path fd }
      else view s := by
  obtain ⟨-, hbound, hfree⟩ := h.waits fd.path p hp
  have hfound : s.db[fd.path]? = none := Option.map_eq_none_iff.mp hfree
  rw [handleFileData, hbound, hfound]
  cases fd.existing with
  | false => rfl
  | true => exact view_insertNew h.inScan (h.waits.insert hbound hfree rfl rfl)

end Scanning

section Agreement

/-- The attributes under which an object is inserted, if SQLite takes them. -/
def inserted (p : FileData) : Option Attributes :=
  if storable p.path p.attributes then some p.attributes else none

/-- If the path of a message waits, and no other waiting object is refused anyway, the message
makes of the row of the waiting object what will then be inserted. -/
def Agrees (unitTest : Bool) (s : State) (x : FileData × Flags) : Prop :=
  ∀ p, s.insertSet[x.1.path]? = some p → OthersStorable s x.1.path →
    (inserted p).bind (fun a => entry unitTest x.1 (some a)) =
      (inserted (if x.1.existing then x.1 else p)).map some

/-- In plain words: the object exists, and its row would be updated to just what inserting it
gives, or is that already. -/
theorem agrees_iff_of_storable {p : FileData} (hp : storable p.path p.attributes = true)
    (hfd : storable fd.path fd.attributes = true) :
    ((inserted p).bind (fun a => entry unitTest fd (some a)) =
        (inserted (if fd.existing then fd else p)).map some) ↔
      fd.existing = true ∧ fd.attributes =
        if changed unitTest p.attributes fd then p.attributes.updated fd else p.attributes := by
  cases hexists : fd.existing with
  | false => simp [inserted, hp, entry, hexists]
  | true =>
    cases hchanged : changed unitTest p.attributes fd with
    | false =>
      simp only [inserted, hp, hfd, entry, hexists, hchanged, if_true, Option.bind_some,
        Bool.true_eq_false, Bool.false_eq_true, if_false, Option.map_some, Option.some.injEq,
        true_and]
      exact eq_comm
    | true =>
      by_cases hstorable : storable fd.path (p.attributes.updated fd) = true
      · simp only [inserted, hp, hfd, entry, hexists, hchanged, hstorable, if_true,
          Option.bind_some, Bool.true_eq_false, if_false, Option.map_some, Option.some.injEq,
          true_and]
        exact eq_comm
      · have hne : fd.attributes ≠ p.attributes.updated fd := by
          intro heq
          exact hstorable (heq ▸ hfd)
        simp [inserted, hp, hfd, entry, hexists, hchanged, hstorable, hne]

theorem view_waiting {name : String} {p : FileData} (hp : s.insertSet[name]? = some p)
    (hothers : OthersStorable s name) :
    view s = (inserted p).map fun a => Function.update (writtenRows s) name (some a) := by
  have hwritten : Function.update (writtenRows s) name (some p.attributes) = writtenRows s := by
    rw [Function.update_eq_self_iff, writtenRows, hp]
  rw [view, inserted]
  by_cases hstorable : storable p.path p.attributes = true
  · rw [if_pos ((allStorable_of_waiting hp).mpr ⟨hothers, hstorable⟩), if_pos hstorable,
      Option.map_some, hwritten]
  · rw [if_neg fun hall => hstorable ((allStorable_of_waiting hp).mp hall).2, if_neg hstorable,
      Option.map_none]

theorem view_replaced {name : String} (p : FileData) (hothers : OthersStorable s name) :
    view { s with insertSet := s.insertSet.insert name p } =
      (inserted p).map fun a => Function.update (writtenRows s) name (some a) := by
  have hwritten : writtenRows { s with insertSet := s.insertSet.insert name p } =
      Function.update (writtenRows s) name (some p.attributes) := writtenRows_insert rfl rfl
  rw [view, inserted, hwritten]
  by_cases hstorable : storable p.path p.attributes = true
  · rw [if_pos ((allStorable_insert rfl).mpr ⟨hothers, hstorable⟩), if_pos hstorable,
      Option.map_some]
  · rw [if_neg fun hall => hstorable ((allStorable_insert rfl).mp hall).2, if_neg hstorable,
      Option.map_none]

/-- A message of a scan examines its object in the rows in view exactly if it agrees with what
waits. -/
theorem view_handleFileData_iff (h : Scanning s) (x : FileData × Flags) (flags : Flags) :
    (handleFileData unitTest blockSize x.1 flags s).toOption.bind view =
      (view s).bind (examine unitTest x.1) ↔ Agrees unitTest s x := by
  cases hp : s.insertSet[x.1.path]? with
  | none =>
    apply iff_of_true (view_handleFileData h hp)
    intro p hp'
    simp [hp] at hp'
  | some p =>
    rw [view_handleFileData_waiting h hp]
    by_cases hothers : OthersStorable s x.1.path
    · have hleft : (if x.1.existing then
          view { s with insertSet := s.insertSet.insert x.1.path x.1 } else view s) =
            ((inserted (if x.1.existing then x.1 else p)).map some).map
              (Function.update (writtenRows s) x.1.path) := by
        rw [Option.map_map]
        cases x.1.existing with
        | false => exact view_waiting hp hothers
        | true => exact view_replaced x.1 hothers
      have hright : (view s).bind (examine unitTest x.1) =
          ((inserted p).bind fun a => entry unitTest x.1 (some a)).map
            (Function.update (writtenRows s) x.1.path) := by
        rw [view_waiting hp hothers]
        cases inserted p with
        | none => rfl
        | some a =>
          have hbound := (h.waits x.1.path p hp).2.1
          simp only [Option.map_some, Option.bind_some, examine, hbound, Function.update_self]
          congr 1
          funext v
          exact Function.update_idem _ _ _
      rw [hleft, hright,
        (Option.map_injective (Function.update_injective (writtenRows s) x.1.path)).eq_iff]
      constructor
      · intro heq p' hp' _
        obtain rfl := Option.some.inj (hp.symm.trans hp')
        exact heq.symm
      · intro hagrees
        exact (hagrees p hp hothers).symm
    · have hall : allStorable s = false := by
        rw [← Bool.not_eq_true, allStorable_of_waiting hp]
        exact fun hcontra => hothers hcontra.1
      have hall' : allStorable { s with insertSet := s.insertSet.insert x.1.path x.1 } = false := by
        rw [← Bool.not_eq_true, allStorable_insert rfl]
        exact fun hcontra => hothers hcontra.1
      apply iff_of_true
      · simp [view, hall, hall']
      · intro p' _ hcontra
        exact absurd hcontra hothers

end Agreement

section Runs

variable (unitTest : Bool) (blockSize : ℕ) (db : Table)

/-- The handling of a message, unless an exception ends the task. -/
def messageStep (s : State) (m : Message) : Option State :=
  (handle unitTest blockSize true m s).toOption

/-- The handling of a message with the result of an examination. -/
def fileDataStep (s : State) (x : FileData × Flags) : Option State :=
  messageStep unitTest blockSize s (.ofResult x)

/-- The rows after messages between the start of a scan and the end of its first phase. -/
def batchedRows (ms : List (FileData × Flags)) : Option Rows :=
  (runSteps (messageStep unitTest blockSize) { db := db }
    ({ flags := { startscan := true } } :: ms.map .ofResult ++
      [{ flags := { midscan := true } }])).map fun s => rows s.db

/-- The rows after the same messages outside a scan. -/
def immediateRows (ms : List (FileData × Flags)) : Option Rows :=
  (runSteps (messageStep unitTest blockSize) { db := db } (ms.map .ofResult)).map fun s =>
    rows s.db

variable {unitTest blockSize db}

theorem fileDataStep_eq (s : State) (x : FileData × Flags) :
    fileDataStep unitTest blockSize s x =
      (handleFileData unitTest blockSize x.1 (Message.ofResult x).flags s).toOption := by
  simp [fileDataStep, messageStep, handle, Message.ofResult]

theorem fileDataStep_eq_some {x : FileData × Flags} : fileDataStep unitTest blockSize s x = some s' ↔
    handleFileData unitTest blockSize x.1 (Message.ofResult x).flags s = .ok s' := by
  rw [fileDataStep_eq]
  cases handleFileData unitTest blockSize x.1 (Message.ofResult x).flags s <;>
    simp [Except.toOption]

theorem runSteps_ofResult (s : State) (ms : List (FileData × Flags)) :
    runSteps (messageStep unitTest blockSize) s (ms.map .ofResult) =
      runSteps (fileDataStep unitTest blockSize) s ms := by
  induction ms generalizing s with
  | nil => rfl
  | cons x ms ih =>
    rw [List.map_cons, runSteps_cons, runSteps_cons]
    exact congrArg _ (funext ih)

/-- The messages of a scan are handled between its start and the end of its first phase. -/
theorem batchedRows_eq_midScan (ms : List (FileData × Flags)) :
    batchedRows unitTest blockSize db ms =
      (runSteps (fileDataStep unitTest blockSize) (startScan { db := db }) ms).bind fun s =>
        (midScan s).toOption.map fun s => rows s.db := by
  have hstart : messageStep unitTest blockSize { db := db } { flags := { startscan := true } } =
      some (startScan { db := db }) := rfl
  have hmid : ∀ s, messageStep unitTest blockSize s { flags := { midscan := true } } =
      (midScan s).toOption := fun s => rfl
  rw [batchedRows, List.cons_append, runSteps_cons, hstart, Option.bind_some, runSteps_append,
    runSteps_ofResult, Option.map_bind]
  congr 1
  funext s
  rw [Function.comp_apply, runSteps_cons, hmid]
  cases (midScan s).toOption <;> rfl

theorem immediateRows_eq (ms : List (FileData × Flags)) :
    immediateRows unitTest blockSize db ms =
      (runSteps (fileDataStep unitTest blockSize) { db := db } ms).map fun s => rows s.db := by
  rw [immediateRows, runSteps_ofResult]

theorem midScan_view (h : Scanning s) :
    (midScan s).toOption.map (fun s => rows s.db) = view s := by
  let phaseTwo : Flags := { chkContent := true, forceUpdate := true }
  let events :=
    (unscanned s.db).map (columnText ·, phaseTwo) ++ [("", { endscan := true })]
  have hview := doInsertSet_view (s := { s with events := s.events ++ events, inScan := false })
    (h.waits.congr rfl rfl)
  have hcongr : view { s with events := s.events ++ events, inScan := false } = view s :=
    view_congr rfl rfl
  rw [← hcongr, ← hview, midScan]
  cases doInsertSet { s with events := s.events ++ events, inScan := false } with
  | error e => rfl
  | ok s' => exact congrArg some (rows_doUpdateQueue s')

theorem scanning_run {ms : List (FileData × Flags)} (h : Scanning s)
    (hrun : runSteps (fileDataStep unitTest blockSize) s ms = some s') : Scanning s' := by
  refine runSteps_invariant ?_ h hrun
  intro u x v hu hv
  exact hu.handleFileData (fileDataStep_eq_some.mp hv)

theorem scanning_startScan : Scanning (startScan { db := db }) := ⟨rfl, .of_empty rfl⟩

theorem batchedRows_eq (ms : List (FileData × Flags)) :
    batchedRows unitTest blockSize db ms =
      (runSteps (fileDataStep unitTest blockSize) (startScan { db := db }) ms).bind view := by
  rw [batchedRows_eq_midScan]
  cases hrun : runSteps (fileDataStep unitTest blockSize) (startScan { db := db }) ms with
  | none => rfl
  | some s => exact midScan_view (scanning_run scanning_startScan hrun)

theorem batchedRows_concat (ms : List (FileData × Flags)) (x : FileData × Flags) :
    batchedRows unitTest blockSize db (ms ++ [x]) =
      (runSteps (fileDataStep unitTest blockSize) (startScan { db := db }) ms).bind fun s =>
        (fileDataStep unitTest blockSize s x).bind view := by
  rw [batchedRows_eq, runSteps_append]
  cases runSteps (fileDataStep unitTest blockSize) (startScan { db := db }) ms with
  | none => rfl
  | some s =>
    rw [Option.bind_some, Option.bind_some, runSteps_cons]
    cases fileDataStep unitTest blockSize s x <;> rfl

theorem inScan_handleFileData (hscan : s.inScan = false)
    (hrun : handleFileData unitTest blockSize fd flags s = .ok s') : s'.inScan = false := by
  rw [handleFileData] at hrun
  cases hbound : bindText fd.path with
  | error what => simp [hbound] at hrun
  | ok u =>
    simp only [hbound] at hrun
    cases hfound : s.db[fd.path]? with
    | none =>
      simp only [hfound, insertNew, hscan, Bool.false_eq_true, if_false] at hrun
      split at hrun
      · split at hrun <;> cases hrun
        rfl
      · cases hrun
        exact hscan
    | some row =>
      simp only [hfound, compareRow, hscan, Bool.false_eq_true, if_false] at hrun
      split at hrun
      · split at hrun
        · split at hrun <;> cases hrun
          rfl
        · split at hrun <;> cases hrun
          · rfl
          · exact hscan
      · cases hrun
        rfl

theorem immediate_run {ms : List (FileData × Flags)}
    (hrun : runSteps (fileDataStep unitTest blockSize) { db := db } ms = some s) :
    s.inScan = false := by
  have hstep : ∀ {u : State} {x : FileData × Flags} {v : State}, u.inScan = false →
      fileDataStep unitTest blockSize u x = some v → v.inScan = false := by
    intro u x v hu hv
    exact inScan_handleFileData hu (fileDataStep_eq_some.mp hv)
  have hstart : ({ db := db } : State).inScan = false := rfl
  exact runSteps_invariant hstep hstart hrun

theorem immediateRows_concat (ms : List (FileData × Flags)) (x : FileData × Flags) :
    immediateRows unitTest blockSize db (ms ++ [x]) =
      (immediateRows unitTest blockSize db ms).bind (examine unitTest x.1) := by
  rw [immediateRows_eq, immediateRows_eq, runSteps_append]
  cases hrun : runSteps (fileDataStep unitTest blockSize) { db := db } ms with
  | none => rfl
  | some s =>
    rw [Option.bind_some, Option.map_some, Option.bind_some,
      ← handleFileData_immediate (immediate_run hrun), runSteps_cons, ← fileDataStep_eq]
    cases fileDataStep unitTest blockSize s x <;> rfl

/-- Batching during a scan changes nothing in the end. The rows are those of handling the
messages one by one, for a sequence of messages and all its beginnings, exactly if every
message agrees with the object that waits under its path. -/
theorem batched_eq_immediate_iff (unitTest : Bool) (blockSize : ℕ) (db : Table)
    (ms : List (FileData × Flags)) :
    (∀ pre, pre <+: ms →
      batchedRows unitTest blockSize db pre = immediateRows unitTest blockSize db pre) ↔
      StepsMeet (fileDataStep unitTest blockSize) (Agrees unitTest) (startScan { db := db })
        ms := by
  induction ms using List.reverseRecOn with
  | nil =>
    apply iff_of_true
    · intro pre hpre
      rw [List.prefix_nil.mp hpre, batchedRows_eq]
      exact (view_of_empty rfl).trans (congrArg some (rows_startScan _))
    · exact stepsMeet_nil _
  | append_singleton ms x ih =>
    rw [stepsMeet_concat, ← ih]
    simp only [List.prefix_concat_iff, forall_eq_or_imp]
    rw [and_comm]
    apply and_congr_right
    intro hms
    have hsame := hms ms List.prefix_rfl
    rw [batchedRows_eq] at hsame
    rw [batchedRows_concat, immediateRows_concat, ← hsame]
    cases hrun : runSteps (fileDataStep unitTest blockSize) (startScan { db := db }) ms with
    | none => simp
    | some s =>
      have hscanning := scanning_run scanning_startScan hrun
      rw [Option.bind_some, Option.bind_some, fileDataStep_eq, view_handleFileData_iff hscanning]
      simp

/-- A file that appears during a scan and is deleted, changed in content or touched before the
end of the first phase. -/
def appeared : FileData where
  path := "/etc/motd"
  existing := true
  contentChecked := true
  user := "root"
  group := "root"
  size := 2
  type := .file
  sha256 := "aa"
  mtime := 10

def disappeared : FileData := { path := "/etc/motd", contentChecked := true }

def touched : FileData := { appeared with mtime := 11 }

/-- The deletion of a waiting object leaves its row, and a later look at one with nothing but
another time of modification replaces that time. -/
theorem batched_ne_immediate :
    (batchedRows false 1000 ∅ [(appeared, {}), (disappeared, {})]).map (· "/etc/motd") =
        some (some appeared.attributes) ∧
      (immediateRows false 1000 ∅ [(appeared, {}), (disappeared, {})]).map (· "/etc/motd") =
        some none ∧
      (batchedRows false 1000 ∅ [(appeared, {}), (touched, {})]).map (· "/etc/motd") =
        some (some touched.attributes) ∧
      (immediateRows false 1000 ∅ [(appeared, {}), (touched, {})]).map (· "/etc/motd") =
        some (some appeared.attributes) ∧ touched.attributes ≠ appeared.attributes := by
  decide +kernel

end Runs

end Ctguard.AlertTask
