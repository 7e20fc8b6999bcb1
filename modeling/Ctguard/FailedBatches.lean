import Ctguard.AlertTask
import Mathlib.Data.List.Infix

/-!
# A batch that fails

`do_insert_set` and `do_update_queue` run their statements in a transaction that is ended when the
scope of `sqlite_transaction` is left, be it by an exception. Any call of SQLite may report an
error. Of the database, what is persisted is kept apart from the statements that were executed
since the transaction began. Without an error the two functions are those of `alert_task`.
-/

namespace Ctguard.FailedBatches

open AlertTask

section Database

universe u v

/-- What is persisted, and the statements executed in an open transaction. -/
structure Database (β : Type u) (σ : Type v) where
  persisted : β
  pending : Option (List σ) := none

variable {β : Type u} {σ : Type v} (apply : β → σ → β)

namespace Database

/-- The contents as statements see them. -/
def contents (d : Database β σ) : β := (d.pending.getD []).foldl apply d.persisted

/-- Without a transaction a statement is persisted at once. -/
def exec (x : σ) (d : Database β σ) : Database β σ :=
  match d.pending with
  | none => { d with persisted := apply d.persisted x }
  | some xs => { d with pending := some (xs ++ [x]) }

def beginTransaction (d : Database β σ) : Database β σ := { d with pending := some [] }

def endTransaction (d : Database β σ) : Database β σ where
  persisted := d.contents apply

end Database

end Database

/-- A statement of a batch. -/
inductive Statement where
  | insert (fd : FileData)
  | confirm (path : String)

def applyStatement (db : Table) : Statement → Table
  | .insert fd => db.insert fd.path { attributes := fd.attributes }
  | .confirm path => confirm db path

/-- The database with the local data of the task, and the alerts it has queued. -/
structure Store where
  database : Database Table Statement
  insertSet : Std.ExtTreeMap String FileData := ∅
  updateQueue : List String := []
  alerts : List Alert := []

/-- The calls for one statement of a batch. -/
inductive Call where
  | bind
  | run
  | reset
  | clearBindings
  deriving DecidableEq

/-- The errors that SQLite reports during a batch: when the transaction is begun, when the
statement is compiled, in a call for one of the statements, and when the transaction is ended. -/
structure Faults where
  begins : Option String := none
  compiles : Option String := none
  calls : ℕ → Option (Call × String) := fun _ => none
  ends : Option String := none

abbrev Outcome := Store × Except String Unit

section Batches

/-- The calls for one statement. An error behind `run` comes after it was executed. -/
def execute (bound : Except String Unit) (refused : Option String) (x : Statement)
    (fault : Option (Call × String)) (s : Store) : Outcome :=
  match bound, fault with
  | .error what, _ => (s, .error what)
  | .ok (), some (.bind, what) => (s, .error what)
  | .ok (), some (.run, what) => (s, .error what)
  | .ok (), some (_, what) =>
    match refused with
    | some what => (s, .error what)
    | none => ({ s with database := s.database.exec applyStatement x }, .error what)
  | .ok (), none =>
    match refused with
    | some what => (s, .error what)
    | none => ({ s with database := s.database.exec applyStatement x }, .ok ())

/-- One `INSERT`, which is refused if its name has a row. -/
def insertOne (fault : Option (Call × String)) (fd : FileData) (s : Store) : Outcome :=
  execute (bindInsert fd.path fd.attributes)
    (if fd.path ∈ s.database.contents applyStatement then some uniqueFailed else none)
    (.insert fd) fault s

def insertLoop (calls : ℕ → Option (Call × String)) : List FileData → Store → Outcome
  | [], s => (s, .ok ())
  | fd :: fds, s =>
    let one := insertOne (calls 0) fd s
    match one.2 with
    | .error what => (one.1, .error what)
    | .ok () => insertLoop (fun n => calls (n + 1)) fds
        { one.1 with alerts := one.1.alerts ++ [.new fd] }

/-- The part of `do_insert_set` in the scope of its transaction. -/
def insertBody (f : Faults) (s : Store) : Outcome :=
  match f.compiles with
  | some what => (s, .error what)
  | none =>
    let all := insertLoop f.calls (s.insertSet.toList.map Prod.snd) s
    match all.2 with
    | .error what => (all.1, .error what)
    | .ok () => ({ all.1 with insertSet := ∅ }, .ok ())

/-- A path leaves the queue when its `UPDATE` has been run. -/
def updateLoop (calls : ℕ → Option (Call × String)) : List String → Store → Outcome
  | [], s => (s, .ok ())
  | path :: paths, s =>
    let one := execute (bindText path) none (.confirm path) (calls 0) s
    match one.2 with
    | .error what => (one.1, .error what)
    | .ok () => updateLoop (fun n => calls (n + 1)) paths { one.1 with updateQueue := paths }

/-- The part of `do_update_queue` in the scope of its transaction. -/
def updateBody (f : Faults) (s : Store) : Outcome :=
  match f.compiles with
  | some what => (s, .error what)
  | none => updateLoop f.calls s.updateQueue s

/-- The destructor of `sqlite_transaction`. An error of its own is thrown only if no other
exception is under way. -/
def leave (ends : Option String) (r : Outcome) : Outcome :=
  match ends with
  | none => ({ r.1 with database := r.1.database.endTransaction applyStatement }, r.2)
  | some what =>
    match r.2 with
    | .ok () => (r.1, .error what)
    | .error e => (r.1, .error e)

/-- The scope of a `sqlite_transaction`. -/
def inTransaction (f : Faults) (body : Store → Outcome) (s : Store) : Outcome :=
  match f.begins with
  | some what => (s, .error what)
  | none => leave f.ends (body { s with database := s.database.beginTransaction })

def doInsertSet (f : Faults) (s : Store) : Outcome :=
  if s.insertSet.isEmpty then (s, .ok ()) else inTransaction f (insertBody f) s

def doUpdateQueue (f : Faults) (s : Store) : Outcome :=
  if s.updateQueue = [] then (s, .ok ()) else inTransaction f (updateBody f) s

end Batches

section Refinement

variable {β : Type} {σ : Type} {apply : β → σ → β} {d : Database β σ}

namespace Database

theorem contents_exec (x : σ) : (d.exec apply x).contents apply = apply (d.contents apply) x := by
  rw [exec]
  cases hpending : d.pending <;> simp [contents, hpending]

theorem contents_beginTransaction (h : d.pending = none) :
    d.beginTransaction.contents apply = d.contents apply := by
  simp [contents, beginTransaction, h]

end Database

variable {s : Store} (t : State)

/-- The state of `alert_task`, with the table as its statements see it. -/
def Store.into (s : Store) (t : State) : State :=
  { t with
    db := s.database.contents applyStatement
    insertSet := s.insertSet
    updateQueue := s.updateQueue
    alerts := s.alerts }

def resultOf (r : Outcome) (t : State) : Result :=
  match r.2 with
  | .ok () => .ok (r.1.into t)
  | .error what => .error (r.1.into t, what)

/-- Without an error of SQLite, one `INSERT` is refused as that of `alert_task`, and otherwise
changes the table as that does. -/
theorem insertOne_none (fd : FileData) (s : Store) :
    match insertRow fd (s.database.contents applyStatement) with
    | .error what => insertOne none fd s = (s, .error what)
    | .ok db => ∃ d, insertOne none fd s = ({ s with database := d }, .ok ()) ∧
        d.contents applyStatement = db := by
  rw [insertRow, insertOne, execute.eq_def]
  cases hbind : bindInsert fd.path fd.attributes with
  | error what => rfl
  | ok u =>
    by_cases hrow : fd.path ∈ s.database.contents applyStatement
    · simp only [hrow, if_true]
      rfl
    · simp only [hrow, if_false]
      exact ⟨_, rfl, Database.contents_exec _⟩

theorem insertAll_into (fds : List FileData) (s : Store) :
    insertAll fds (s.into t) = resultOf (insertLoop (fun _ => none) fds s) t := by
  induction fds generalizing s with
  | nil => rfl
  | cons fd fds ih =>
    have hone := insertOne_none fd s
    rw [insertAll, insertLoop, show (s.into t).db = s.database.contents applyStatement from rfl]
    cases hrow : insertRow fd (s.database.contents applyStatement) with
    | error what =>
      rw [hrow] at hone
      simp only [hone]
      rfl
    | ok db =>
      rw [hrow] at hone
      obtain ⟨d, hone, rfl⟩ := hone
      simp only [hone]
      exact ih { s with database := d, alerts := s.alerts ++ [.new fd] }

theorem updateLoop_into {paths : List String} (hbound : ∀ path ∈ paths, bindText path = .ok ())
    {s : Store} (hqueue : s.updateQueue = paths) :
    resultOf (updateLoop (fun _ => none) paths s) t = .ok (AlertTask.doUpdateQueue (s.into t)) := by
  induction paths generalizing s with
  | nil =>
    rw [AlertTask.doUpdateQueue, show (s.into t).updateQueue = [] from hqueue]
    simp [updateLoop, resultOf, Store.into, hqueue]
  | cons path paths ih =>
    obtain ⟨hpath, hpaths⟩ := List.forall_mem_cons.mp hbound
    have hone : execute (bindText path) none (.confirm path) none s =
        ({ s with database := s.database.exec applyStatement (.confirm path) }, .ok ()) := by
      rw [hpath]
      rfl
    have hmore := @ih hpaths { s with
      database := s.database.exec applyStatement (.confirm path), updateQueue := paths } rfl
    rw [updateLoop, hone]
    simp only [hmore, AlertTask.doUpdateQueue, Store.into, hqueue, List.foldl_cons,
      Database.contents_exec]
    rfl

theorem resultOf_leave (r : Outcome) : resultOf (leave none r) t = resultOf r t := rfl

theorem into_beginTransaction (hclosed : s.database.pending = none) :
    ({ s with database := s.database.beginTransaction } : Store).into t = s.into t := by
  rw [Store.into, Database.contents_beginTransaction hclosed]
  rfl

/-- Without an error of SQLite, the call is the one of `alert_task`. -/
theorem doInsertSet_into (hclosed : s.database.pending = none) :
    resultOf (doInsertSet {} s) t = AlertTask.doInsertSet (s.into t) := by
  have hset : (s.into t).insertSet = s.insertSet := rfl
  rw [doInsertSet, AlertTask.doInsertSet, hset]
  by_cases hempty : s.insertSet.isEmpty = true
  · rw [if_pos hempty]
    have hnone := Std.ExtTreeMap.isEmpty_iff.mp hempty
    have hlist : (∅ : Std.ExtTreeMap String FileData).toList = [] := rfl
    rw [hnone, hlist, List.map_nil, insertAll, ← hnone]
    rfl
  · rw [if_neg hempty, ← into_beginTransaction t hclosed, insertAll_into]
    simp only [inTransaction, insertBody, resultOf_leave]
    cases hresult : (insertLoop (fun _ => none) (s.insertSet.toList.map Prod.snd)
        { s with database := s.database.beginTransaction }).2 with
    | error what =>
      simp only [resultOf, hresult]
      rfl
    | ok u =>
      simp only [resultOf, hresult]
      rfl

/-- The same for the queue of updates. Its paths have all been bound before, to look up their
rows. -/
theorem doUpdateQueue_into (hclosed : s.database.pending = none)
    (hbound : ∀ path ∈ s.updateQueue, bindText path = .ok ()) :
    resultOf (doUpdateQueue {} s) t = .ok (AlertTask.doUpdateQueue (s.into t)) := by
  rw [doUpdateQueue]
  by_cases hempty : s.updateQueue = []
  · rw [if_pos hempty, AlertTask.doUpdateQueue, show (s.into t).updateQueue = [] from hempty]
    simp [resultOf, Store.into, hempty]
  · rw [if_neg hempty, ← into_beginTransaction t hclosed]
    simp only [inTransaction, updateBody, resultOf_leave]
    exact updateLoop_into t hbound rfl

end Refinement

section Executed

variable {f : Faults} {s s' : Store}

/-- In an open transaction, some statements are executed and nothing is persisted. -/
def Executes (s : Store) (xs : List Statement) (s' : Store) : Prop :=
  s'.database = { s.database with pending := s.database.pending.map (· ++ xs) }

theorem Executes.trans {t : Store} {xs ys : List Statement} (h : Executes s xs s')
    (h' : Executes s' ys t) : Executes s (xs ++ ys) t := by
  rw [Executes] at *
  rw [h', h]
  simp [Function.comp_def]

theorem executes_nil (s : Store) : Executes s [] s := by
  rw [Executes]
  cases s.database with
  | mk persisted pending => cases pending <;> simp

/-- The statement is executed if all goes well, and maybe if it does not. -/
theorem execute_spec {bound : Except String Unit} {refused : Option String} {x : Statement}
    {fault : Option (Call × String)} {xs : List Statement} (hopen : s.database.pending = some xs) :
    let r := execute bound refused x fault s
    r.1.alerts = s.alerts ∧
      (Executes s [x] r.1 ∨ Executes s [] r.1 ∧ ∃ what, r.2 = .error what) := by
  have hexec : Executes s [x] { s with database := s.database.exec applyStatement x } := by
    simp [Executes, Database.exec, hopen]
  have hnot := executes_nil s
  intro r
  simp only [r, execute]
  split
  · exact ⟨rfl, .inr ⟨hnot, _, rfl⟩⟩
  · exact ⟨rfl, .inr ⟨hnot, _, rfl⟩⟩
  · exact ⟨rfl, .inr ⟨hnot, _, rfl⟩⟩
  · split
    · exact ⟨rfl, .inr ⟨hnot, _, rfl⟩⟩
    · exact ⟨rfl, .inl hexec⟩
  · split
    · exact ⟨rfl, .inr ⟨hnot, _, rfl⟩⟩
    · exact ⟨rfl, .inl hexec⟩

theorem Executes.pending {xs ys : List Statement} (h : Executes s ys s')
    (hopen : s.database.pending = some xs) : s'.database.pending = some (xs ++ ys) := by
  rw [h, hopen]
  rfl

theorem insertOne_spec {fault : Option (Call × String)} {fd : FileData} {xs : List Statement}
    (hopen : s.database.pending = some xs) :
    (insertOne fault fd s).1.alerts = s.alerts ∧ (Executes s [.insert fd] (insertOne fault fd s).1 ∨
      Executes s [] (insertOne fault fd s).1 ∧ ∃ what, (insertOne fault fd s).2 = .error what) :=
  execute_spec hopen

theorem executes_of_ok {x : Statement} {result : Except String Unit} {u : Unit}
    (h : Executes s [x] s' ∨ Executes s [] s' ∧ ∃ what, result = .error what)
    (hok : result = .ok u) : Executes s [x] s' := by
  rcases h with hdone | ⟨-, what, hwhat⟩
  · exact hdone
  · rw [hwhat] at hok
    cases hok

/-- The loop executes a first part of the batch, and queues the alerts of what it has executed,
but for the last one if it fails behind it. -/
theorem insertLoop_spec {calls : ℕ → Option (Call × String)} {fds : List FileData}
    {xs : List Statement} (hopen : s.database.pending = some xs) :
    ∃ done alerted, done <+: fds ∧ alerted <+: done ∧ done.length ≤ alerted.length + 1 ∧
      Executes s (done.map .insert) (insertLoop calls fds s).1 ∧
      (insertLoop calls fds s).1.alerts = s.alerts ++ alerted.map .new := by
  induction fds generalizing calls s xs with
  | nil =>
    exact ⟨[], [], List.prefix_rfl, List.prefix_rfl, by simp, executes_nil s, by simp [insertLoop]⟩
  | cons fd fds ih =>
    obtain ⟨halerts, hone⟩ := @insertOne_spec s (calls 0) fd xs hopen
    rw [insertLoop]
    cases hresult : (insertOne (calls 0) fd s).2 with
    | error what =>
      simp only
      rcases hone with hdone | ⟨hnot, -⟩
      · exact ⟨[fd], [], by simp, List.nil_prefix, by simp, hdone, by simpa using halerts⟩
      · exact ⟨[], [], List.nil_prefix, List.prefix_rfl, by simp, hnot, by simpa using halerts⟩
    | ok u =>
      simp only
      have hdone : Executes s [.insert fd] (insertOne (calls 0) fd s).1 :=
        executes_of_ok hone hresult
      obtain ⟨done, alerted, hstart, halerted, hlength, hmore, hqueued⟩ := @ih
        { (insertOne (calls 0) fd s).1 with
          alerts := (insertOne (calls 0) fd s).1.alerts ++ [.new fd] }
        (fun n => calls (n + 1)) _ (hdone.pending hopen)
      refine ⟨fd :: done, fd :: alerted, List.cons_prefix_cons.mpr ⟨rfl, hstart⟩,
        List.cons_prefix_cons.mpr ⟨rfl, halerted⟩, by simpa using hlength, ?_, ?_⟩
      · exact Executes.trans hdone hmore
      · rw [hqueued, halerts]
        simp

theorem updateLoop_spec {calls : ℕ → Option (Call × String)} {paths : List String}
    {xs : List Statement} (hopen : s.database.pending = some xs) :
    ∃ done, done <+: paths ∧ Executes s (done.map .confirm) (updateLoop calls paths s).1 := by
  induction paths generalizing calls s xs with
  | nil => exact ⟨[], List.prefix_rfl, executes_nil s⟩
  | cons path paths ih =>
    obtain ⟨-, hone⟩ := @execute_spec s (bindText path) none (.confirm path) (calls 0) xs hopen
    rw [updateLoop]
    cases hresult : (execute (bindText path) none (.confirm path) (calls 0) s).2 with
    | error what =>
      simp only
      rcases hone with hdone | ⟨hnot, -⟩
      · exact ⟨[path], by simp, hdone⟩
      · exact ⟨[], List.nil_prefix, hnot⟩
    | ok u =>
      simp only
      have hdone : Executes s [.confirm path]
          (execute (bindText path) none (.confirm path) (calls 0) s).1 :=
        executes_of_ok hone hresult
      obtain ⟨done, hstart, hmore⟩ := @ih
        { (execute (bindText path) none (.confirm path) (calls 0) s).1 with updateQueue := paths }
        (fun n => calls (n + 1)) _ (hdone.pending hopen)
      exact ⟨path :: done, List.cons_prefix_cons.mpr ⟨rfl, hstart⟩, Executes.trans hdone hmore⟩

/-- The statements of a call that were executed when the scope of its transaction is left. -/
def executed (body : Store → Outcome) (s : Store) : List Statement :=
  (body { s with database := s.database.beginTransaction }).1.database.pending.getD []

/-- What the call leaves persisted: what it has executed, if the transaction was begun and ended,
and nothing of it otherwise. -/
def PersistsExecuted (f : Faults) (body : Store → Outcome) (batch : List Statement) (s : Store)
    (r : Outcome) : Prop :=
  executed body s <+: batch ∧ r.1.database.persisted = if f.begins = none ∧ f.ends = none then
    (executed body s).foldl applyStatement s.database.persisted else s.database.persisted

theorem inTransaction_persists {body : Store → Outcome} {batch : List Statement}
    (hbody : ∃ done, done <+: batch ∧ Executes { s with database := s.database.beginTransaction }
      done (body { s with database := s.database.beginTransaction }).1) :
    PersistsExecuted f body batch s (inTransaction f body s) := by
  obtain ⟨done, hstart, hdone⟩ := hbody
  have hexecuted : executed body s = done := by
    rw [executed, hdone]
    simp [Database.beginTransaction]
  rw [PersistsExecuted, hexecuted, inTransaction]
  refine ⟨hstart, ?_⟩
  cases hbegins : f.begins with
  | some what => simp
  | none =>
    have hpersisted : (body { s with database := s.database.beginTransaction }).1.database.persisted
        = s.database.persisted := by
      rw [hdone]
      rfl
    cases hends : f.ends with
    | some what =>
      simp only [leave]
      cases (body { s with database := s.database.beginTransaction }).2 with
      | ok u => simpa using hpersisted
      | error e => simpa using hpersisted
    | none =>
      have hpending := hdone.pending rfl
      simp [leave, Database.endTransaction, Database.contents, hpending, hpersisted]

theorem insertBody_executes (f : Faults) (s : Store) :
    ∃ done, done <+: (s.insertSet.toList.map Prod.snd).map Statement.insert ∧
      Executes { s with database := s.database.beginTransaction } done
        (insertBody f { s with database := s.database.beginTransaction }).1 := by
  rw [insertBody]
  cases f.compiles with
  | some what => exact ⟨[], List.nil_prefix, executes_nil _⟩
  | none =>
    obtain ⟨done, -, hstart, -, -, hdone, -⟩ := @insertLoop_spec
      { s with database := s.database.beginTransaction } f.calls
      (s.insertSet.toList.map Prod.snd) [] rfl
    refine ⟨done.map .insert, hstart.map _, ?_⟩
    simp only
    split
    · exact hdone
    · exact hdone

theorem updateBody_executes (f : Faults) (s : Store) :
    ∃ done, done <+: s.updateQueue.map Statement.confirm ∧
      Executes { s with database := s.database.beginTransaction } done
        (updateBody f { s with database := s.database.beginTransaction }).1 := by
  rw [updateBody]
  cases f.compiles with
  | some what => exact ⟨[], List.nil_prefix, executes_nil _⟩
  | none =>
    obtain ⟨done, hstart, hdone⟩ := @updateLoop_spec
      { s with database := s.database.beginTransaction } f.calls s.updateQueue [] rfl
    exact ⟨done.map .confirm, hstart.map _, hdone⟩

/-- A batch that fails is persisted as far as it has come: leaving the scope by an exception ends
the transaction, too. -/
theorem failed_batch_persisted (f : Faults) (s : Store) :
    (∀ what, (doInsertSet f s).2 = .error what → PersistsExecuted f (insertBody f)
      ((s.insertSet.toList.map Prod.snd).map .insert) s (doInsertSet f s)) ∧
    ∀ what, (doUpdateQueue f s).2 = .error what → PersistsExecuted f (updateBody f)
      (s.updateQueue.map .confirm) s (doUpdateQueue f s) := by
  constructor
  · intro what hwhat
    rw [doInsertSet] at hwhat ⊢
    by_cases hempty : s.insertSet.isEmpty = true
    · rw [if_pos hempty] at hwhat
      cases hwhat
    · rw [if_neg hempty]
      exact inTransaction_persists (insertBody_executes f s)
  · intro what hwhat
    rw [doUpdateQueue] at hwhat ⊢
    by_cases hempty : s.updateQueue = []
    · rw [if_pos hempty] at hwhat
      cases hwhat
    · rw [if_neg hempty]
      exact inTransaction_persists (updateBody_executes f s)

/-- Two new objects, the second of which has an inode that can not be bound. -/
def twoObjects : Store where
  database := { persisted := ∅ }
  insertSet := ((∅ : Std.ExtTreeMap String FileData).insert "/etc/a"
    { path := "/etc/a", existing := true }).insert "/etc/b"
      { path := "/etc/b", existing := true, inode := 18446744073709551615 }

/-- Two objects that are there as before, while the disk is full. -/
def twoPaths : Store where
  database := { persisted := ∅ }
  updateQueue := ["/etc/a", "/etc/b"]

def diskFull : Faults where
  ends := some "database or disk is full"

/-- Of the first batch one row is persisted, and of the second nothing. -/
theorem failed_batch_persisted_secondFails :
    (∃ fd : FileData, (doInsertSet {} twoObjects).1.database.persisted =
      (∅ : Table).insert fd.path { attributes := fd.attributes }) ∧
    (executed (updateBody diskFull) twoPaths).length = 2 ∧
      (doUpdateQueue diskFull twoPaths).1.database.persisted = ∅ := by
  obtain ⟨hfirst, hrows⟩ := (failed_batch_persisted {} twoObjects).1
    "Content sqlite3_uint64 to bind too long (18446744073709551615)" (by decide +kernel)
  obtain ⟨-, hnothing⟩ := (failed_batch_persisted diskFull twoPaths).2
    "database or disk is full" (by decide +kernel)
  have hone : (executed (insertBody {}) twoObjects).length = 1 := by decide +kernel
  obtain ⟨x, hx⟩ := List.length_eq_one_iff.mp hone
  rw [hx] at hfirst hrows
  obtain ⟨fd, -, rfl⟩ := List.mem_map.mp (hfirst.subset (List.mem_singleton_self x))
  exact ⟨⟨fd, hrows⟩, by decide +kernel, hnothing⟩

theorem secondFails_persists_first :
    (doInsertSet {} twoObjects).2 =
        .error "Content sqlite3_uint64 to bind too long (18446744073709551615)" ∧
      "/etc/a" ∈ (doInsertSet {} twoObjects).1.database.persisted ∧
      "/etc/a" ∉ twoObjects.database.persisted := by
  decide +kernel

end Executed

end Ctguard.FailedBatches
