import Ctguard.Messages
import Mathlib.Data.List.TakeWhile
import Mathlib.Data.Nat.Notation
import Std.Data.ExtTreeMap

/-!
# The database of the disk scanner

`alert_task` compares what the scanner has found out about an object with its row in the
database, and reports and stores the differences. During a scan, new objects wait in a set
and confirmed ones in a queue, which are written at once when they have reached the block
size, and at the end of the first phase of the scan. A value that the binding of a statement
refuses is an exception, which ends the task. The statements before it are not undone: leaving
the scope of a transaction ends it as usual.
-/

namespace Ctguard.AlertTask

/-- `file_data::type`, as it is stored. -/
inductive FileType where
  | directory
  | file
  | socket
  | link
  | blockDevice
  | characterDevice
  | fifo
  | unknown
  deriving DecidableEq, Repr

def FileType.code : FileType → ℕ
  | .directory => 0
  | .file => 1
  | .socket => 2
  | .link => 3
  | .blockDevice => 4
  | .characterDevice => 5
  | .fifo => 6
  | .unknown => 7

/-- The text for a stored type; other numbers have none. -/
def typeName : ℕ → String
  | 0 => "directory"
  | 1 => "regular file"
  | 2 => "socket"
  | 3 => "symbolic link"
  | 4 => "block device"
  | 5 => "character device"
  | 6 => "fifo/pipe"
  | 7 => "unknown object type"
  | _ => ""

/-- `file_data`: what was found out about an object. -/
structure FileData where
  path : String
  existing : Bool := false
  contentChecked : Bool := false
  user : String := ""
  group : String := ""
  size : ℤ := 0
  type : FileType := .unknown
  sha256 : String := ""
  target : String := ""
  deadLnk : Bool := false
  inode : UInt64 := 0
  mode : UInt32 := 0
  mtime : ℤ := 0
  ctime : ℤ := 0
  diff : String := ""
  deriving DecidableEq, Repr

/-- The columns of a row that describe the object. -/
structure Attributes where
  user : String
  group : String
  size : ℤ
  inode : UInt64
  mode : UInt32
  mtime : ℤ
  ctime : ℤ
  type : ℕ
  sha256 : String
  target : String
  deriving DecidableEq, Repr

structure Row where
  attributes : Attributes
  scanned : Bool := true
  deriving DecidableEq, Repr

/-- The table `diskscan-data`, whose names are unique. -/
abbrev Table := Std.ExtTreeMap String Row

/-- The marks of a message. -/
structure Flags where
  realtime : Bool := false
  chkContent : Bool := false
  recursive : Bool := false
  forceUpdate : Bool := false
  chkDiff : Bool := false
  kill : Bool := false
  startscan : Bool := false
  midscan : Bool := false
  endscan : Bool := false
  deriving DecidableEq, Repr

/-- The message is a marker or ends the task. -/
def Flags.special (flags : Flags) : Bool :=
  flags.kill || flags.startscan || flags.midscan || flags.endscan

section Binding

def bindText (value : String) : Except String Unit :=
  if 2147483647 ≤ value.utf8ByteSize then
    .error ("Content string to bind too long (" ++ toString value.utf8ByteSize ++ ")")
  else .ok ()

def bindTextView (value : String) : Except String Unit :=
  if 2147483647 ≤ value.utf8ByteSize then
    .error ("Content string_view to bind too long (" ++ toString value.utf8ByteSize ++ ")")
  else .ok ()

def bindUnsigned (value : ℕ) : Except String Unit :=
  if 2147483647 ≤ value then
    .error ("Content unsigned int to bind too long (" ++ toString value ++ ")")
  else .ok ()

def bindUnsignedLong (value : ℕ) : Except String Unit :=
  if 9223372036854775807 ≤ value then
    .error ("Content sqlite3_uint64 to bind too long (" ++ toString value ++ ")")
  else .ok ()

/-- The bindings of the `INSERT`. Those of signed numbers never fail. -/
def bindInsert (path : String) (a : Attributes) : Except String Unit := do
  bindText path
  bindText a.user
  bindText a.group
  bindUnsignedLong a.inode.toNat
  bindUnsigned a.mode.toNat
  bindUnsigned a.type
  bindTextView a.sha256
  bindText a.target

/-- The bindings of the full `UPDATE`. -/
def bindUpdate (path : String) (a : Attributes) : Except String Unit := do
  bindText a.user
  bindText a.group
  bindUnsignedLong a.inode.toNat
  bindUnsigned a.mode.toNat
  bindTextView a.sha256
  bindUnsigned a.type
  bindText a.target
  bindText path

end Binding

/-- A line of an alert about a changed object. -/
inductive Change where
  | user (old new : String)
  | group (old new : String)
  | size (old new : ℤ)
  | mode (old new : UInt32)
  | inode (old new : UInt64)
  | mtime (old new : ℤ)
  | ctime (old new : ℤ)
  | sha256 (old new : String)
  | target (old new : String)
  | type (old new : ℕ)
  deriving DecidableEq, Repr

/-- Inode and times alone make no alert. -/
def Change.counts : Change → Bool
  | .inode _ _ => false
  | .mtime _ _ => false
  | .ctime _ _ => false
  | _ => true

inductive Alert where
  | new (fd : FileData)
  | changed (fd : FileData) (changes : List Change)
  | deleted (path : String) (type : ℕ)
  deriving DecidableEq, Repr

section Texts

variable (printTime : ℤ → String) (unitTest : Bool)

/-- The type of an object, from the bits `S_IFMT` of its mode. -/
def modeToType (m : UInt32) : Char :=
  match m.toNat / 4096 % 16 with
  | 8 => '-'
  | 4 => 'd'
  | 6 => 'b'
  | 2 => 'c'
  | 1 => 'p'
  | 10 => 'l'
  | 12 => 's'
  | _ => '?'

def modeBit (m : UInt32) (bit : ℕ) : Bool := m.toNat.testBit bit

/-- The three characters for an owner: read, write, and execute with a special bit. -/
def modeTriple (m : UInt32) (shift special : ℕ) (both only : Char) : List Char :=
  [if modeBit m (shift + 2) then 'r' else '-', if modeBit m (shift + 1) then 'w' else '-',
    if modeBit m special then (if modeBit m shift then both else only)
    else if modeBit m shift then 'x' else '-']

def printMode (m : UInt32) : String :=
  String.ofList (modeToType m :: modeTriple m 6 11 's' 'S' ++ modeTriple m 3 10 's' 'l' ++
    modeTriple m 0 9 't' 'T')

def fromTo (what old new : String) : String :=
  what ++ " changed from '" ++ old ++ "' to '" ++ new ++ "'"

def Change.text : Change → String
  | .user old new => fromTo "User" old new ++ "\n"
  | .group old new => fromTo "Group" old new ++ "\n"
  | .size old new => fromTo "Size" (toString old) (toString new) ++ " bytes\n"
  | .mode old new => fromTo "Mode" (printMode old) (printMode new) ++ "\n"
  | .inode old new => fromTo "Inode" (toString old) (toString new) ++ "\n"
  | .mtime old new => fromTo "Mtime" (printTime old) (printTime new) ++ "\n"
  | .ctime old new => fromTo "Ctime" (printTime old) (printTime new) ++ "\n"
  | .sha256 old new => fromTo "SHA256 checksum" old new ++ "\n"
  | .target old new => fromTo "Target" old new ++ "\n"
  | .type old new => fromTo "Type" (typeName old) (typeName new) ++ "\n"

def Alert.path : Alert → String
  | .new fd => fd.path
  | .changed fd _ => fd.path
  | .deleted path _ => path

/-- The text of an alert, over several lines. -/
def Alert.text : Alert → String
  | .new fd => String.join ["ALERT: New object\nPath:            ", fd.path,
      "\nUser:            ", fd.user, "\nGroup:           ", fd.group,
      "\nSize (in bytes): ", toString fd.size, "\nMode:            ", printMode fd.mode, "\n",
      if unitTest then "" else String.join ["Inode:           ", toString fd.inode,
        "\nMtime:           ", printTime fd.mtime, "\nCtime:           ", printTime fd.ctime,
        "\n"],
      if fd.type = .file then String.join ["SHA256 checksum: ", fd.sha256, "\n"] else "",
      if fd.type = .link then String.join ["Target:          ", fd.target,
        "\nValid:           ", if fd.deadLnk then "false" else "true", "\n"] else "",
      "Type:            ", typeName fd.type.code, "\nALERT END"]
  | .changed fd changes => String.join ["ALERT: object changed\nPath:            ", fd.path,
      "\nType:            ", typeName fd.type.code, "\n",
      String.join (changes.map (Change.text printTime)),
      if fd.diff = "" then "" else String.join ["Start Diff\n", fd.diff, "End Diff\n"],
      "ALERT END"]
  | .deleted path type => String.join ["ALERT: object deleted\nPath:            ", path,
      "\nType:            ", typeName type, "\nALERT END"]

/-- The message for an alert; a unit test writes it on one line. -/
def Alert.message (now : ℤ) (a : Alert) : SourceEvent where
  message := if unitTest then (a.text printTime unitTest).map fun c => if c = '\n' then ' ' else c
    else a.text printTime unitTest
  sourceDomain := a.path
  sourceProgram := "ctguard-diskscan"
  timeScanned := if unitTest then 0 else now

end Texts

/-- The database, the local data of the task, and what it has put into queues. -/
structure State where
  db : Table := ∅
  inScan : Bool := false
  insertSet : Std.ExtTreeMap String FileData := ∅
  updateQueue : List String := []
  alerts : List Alert := []
  events : List (String × Flags) := []
  scanIsRunning : Bool := true
  returned : Bool := false

/-- An exception ends the task in a state, with a text. -/
abbrev Result := Except (State × String) State

structure Message where
  fileData : Option FileData := none
  flags : Flags := {}

/-- The message with the result of an examination: its marks are not those of a phase. -/
def Message.ofResult (x : FileData × Flags) : Message where
  fileData := some x.1
  flags := { x.2 with kill := false, startscan := false, midscan := false, endscan := false }

section Task

/-- The attributes of a new row. -/
def FileData.attributes (fd : FileData) : Attributes where
  user := fd.user
  group := fd.group
  size := fd.size
  inode := fd.inode
  mode := fd.mode
  mtime := fd.mtime
  ctime := fd.ctime
  type := fd.type.code
  sha256 := if fd.contentChecked then fd.sha256 else "not computed"
  target := fd.target

/-- The text of a column as it is read: it ends at the first zero. -/
def columnText (value : String) : String := String.ofList (value.toList.takeWhile (· ≠ '\x00'))

theorem columnText_eq_self {value : String} (h : '\x00' ∉ value.toList) :
    columnText value = value := by
  have hall : value.toList.takeWhile (· ≠ '\x00') = value.toList := by
    rw [List.takeWhile_eq_self_iff]
    intro c hc
    have hne : c ≠ '\x00' := by
      rintro rfl
      exact h hc
    simpa using hne
  rw [columnText, hall, String.ofList_toList]

/-- A row as it is read. -/
def Attributes.read (a : Attributes) : Attributes :=
  { a with
    user := columnText a.user
    group := columnText a.group
    sha256 := columnText a.sha256
    target := columnText a.target }

/-- The attributes of a row after the full `UPDATE`. -/
def Attributes.updated (a : Attributes) (fd : FileData) : Attributes :=
  { fd.attributes with sha256 := if fd.contentChecked then fd.sha256 else a.read.sha256 }

variable (unitTest : Bool)

/-- The differences between a row and an object, in the order of their lines. -/
def changes (row : Attributes) (fd : FileData) : List Change :=
  let a := row.read
  List.flatten [
    if a.user ≠ fd.user then [.user a.user fd.user] else [],
    if a.group ≠ fd.group then [.group a.group fd.group] else [],
    if a.size ≠ fd.size then [.size a.size fd.size] else [],
    if a.mode ≠ fd.mode then [.mode a.mode fd.mode] else [],
    if a.inode ≠ fd.inode ∧ unitTest = false then [.inode a.inode fd.inode] else [],
    if a.mtime ≠ fd.mtime ∧ unitTest = false then [.mtime a.mtime fd.mtime] else [],
    if a.ctime ≠ fd.ctime ∧ unitTest = false then [.ctime a.ctime fd.ctime] else [],
    if fd.type = .file ∧ fd.contentChecked = true ∧ fd.sha256 ≠ a.sha256 then
      [.sha256 a.sha256 fd.sha256] else [],
    if fd.type = .link ∧ fd.contentChecked = true ∧ a.target ≠ fd.target then
      [.target a.target fd.target] else [],
    if a.type ≠ fd.type.code then [.type a.type fd.type.code] else []]

def changed (a : Attributes) (fd : FileData) : Bool := (changes unitTest a fd).any Change.counts

/-- The small `UPDATE` of a row. -/
def confirm (db : Table) (path : String) : Table := db.modify path fun r => { r with scanned := true }

/-- What `INSERT` says if its name has a row. -/
def uniqueFailed : String :=
  "Can not run sql statement (19): UNIQUE constraint failed: diskscan-data.name"

/-- One `INSERT`. A new row counts as scanned. -/
def insertRow (fd : FileData) (db : Table) : Except String Table := do
  bindInsert fd.path fd.attributes
  if fd.path ∈ db then
    throw uniqueFailed
  return db.insert fd.path { attributes := fd.attributes }

/-- The inserts of a batch, each followed by its alert. -/
def insertAll : List FileData → State → Result
  | [], s => .ok s
  | fd :: fds, s =>
    match insertRow fd s.db with
    | .error what => .error (s, what)
    | .ok db => insertAll fds { s with db := db, alerts := s.alerts ++ [.new fd] }

/-- The set is written in the order of the paths. -/
def doInsertSet (s : State) : Result := do
  let s ← insertAll (s.insertSet.toList.map Prod.snd) s
  return { s with insertSet := ∅ }

def doUpdateQueue (s : State) : State :=
  { s with db := s.updateQueue.foldl confirm s.db, updateQueue := [] }

variable (blockSize : ℕ)

/-- An existing object that has a row. -/
def compareRow (fd : FileData) (flags : Flags) (row : Row) (s : State) : Result :=
  if changed unitTest row.attributes fd then
    let a := row.attributes.updated fd
    match bindUpdate fd.path a with
    | .error what => .error (s, what)
    | .ok () => .ok { s with
        db := s.db.insert fd.path { attributes := a }
        alerts := s.alerts ++ [.changed fd (changes unitTest row.attributes fd)] }
  else if flags.forceUpdate then
    if s.inScan then
      let s := { s with updateQueue := s.updateQueue ++ [fd.path] }
      .ok (if blockSize ≤ s.updateQueue.length then doUpdateQueue s else s)
    else .ok { s with db := confirm s.db fd.path }
  else .ok s

/-- An existing object that has no row. During a scan, it replaces one that waits under its
path. -/
def insertNew (fd : FileData) (s : State) : Result :=
  if s.inScan then
    let s := { s with insertSet := s.insertSet.insert fd.path fd }
    if blockSize ≤ s.insertSet.size then doInsertSet s else .ok s
  else
    match insertRow fd s.db with
    | .error what => .error (s, what)
    | .ok db => .ok { s with db := db, alerts := s.alerts ++ [.new fd] }

def handleFileData (fd : FileData) (flags : Flags) (s : State) : Result :=
  match bindText fd.path with
  | .error what => .error (s, what)
  | .ok () =>
    match s.db[fd.path]? with
    | some row =>
      if fd.existing then compareRow unitTest blockSize fd flags row s
      else .ok { s with
        db := s.db.erase fd.path
        alerts := s.alerts ++ [.deleted fd.path row.attributes.type] }
    | none => if fd.existing then insertNew blockSize fd s else .ok s

def startScan (s : State) : State :=
  { s with db := s.db.map fun _ r => { r with scanned := false }, inScan := true }

/-- The names that the first phase has not seen. -/
def unscanned (db : Table) : List String := (db.filter fun _ r => !r.scanned).keys

def midScan (s : State) : Result := do
  let phaseTwo : Flags := { chkContent := true, forceUpdate := true }
  let events :=
    (unscanned s.db).map (columnText ·, phaseTwo) ++ [("", { endscan := true })]
  let s ← doInsertSet { s with events := s.events ++ events, inScan := false }
  return doUpdateQueue s

def handle (running : Bool) (m : Message) (s : State) : Result :=
  if m.flags.kill ∨ running = false then .ok { s with returned := true }
  else if m.flags.startscan then .ok (startScan s)
  else if m.flags.midscan then midScan s
  else if m.flags.endscan then .ok { s with scanIsRunning := false }
  else
    match m.fileData with
    | none => .ok s
    | some fd => handleFileData unitTest blockSize fd m.flags s

end Task

end Ctguard.AlertTask
