import Ctguard.AlertTask

/-!
# The numbers that a row stores

`alert_task` binds what `stat` has said about an object to the parameters of a statement and reads
the columns of its row back. SQLite stores signed numbers of 64 bits; the overloads of `bind` and
`get` convert to and from them, and refuse what does not fit.
-/

namespace Ctguard.StoredValues

open AlertTask (FileType bindUnsigned bindUnsignedLong)

/-- The numbers of an object, in the types of `struct stat`. -/
structure StatValues where
  size : Int64
  inode : UInt64
  mode : UInt32
  mtime : Int64
  ctime : Int64
  deriving DecidableEq

section Overloads

def storeLong (value : Int64) : Except String Int64 := .ok value

def storeUnsigned (value : UInt32) : Except String Int64 := do
  bindUnsigned value.toNat
  return value.toInt32.toInt64

def storeUnsignedLong (value : UInt64) : Except String Int64 := do
  bindUnsignedLong value.toNat
  return value.toInt64

/-- `sqlite3_column_int`: the lower 32 bits. -/
def columnInt (column : Int64) : Int32 := column.toInt32

def getLong (column : Int64) : Except String Int64 := .ok column

def getUnsigned (column : Int64) : Except String UInt32 :=
  let r := columnInt column
  if r < 0 then
    .error ("Can not get unsigned int: got negative value '" ++ toString r.toInt ++ "'")
  else .ok r.toUInt32

def getUnsignedLong (column : Int64) : Except String UInt64 :=
  if column < 0 then
    .error ("Can not get unsigned long: got negative value '" ++ toString column.toInt ++ "'")
  else .ok column.toUInt64

end Overloads

section Statements

/-- The columns that hold numbers. -/
inductive Column where
  | size
  | inode
  | mode
  | mtime
  | ctime
  | type
  deriving DecidableEq

/-- The column at a place of the table, counted from zero. -/
def columnAt : ℕ → Option Column
  | 3 => some .size
  | 4 => some .inode
  | 5 => some .mode
  | 6 => some .mtime
  | 7 => some .ctime
  | 8 => some .type
  | _ => none

/-- The two statements that write the columns. -/
inductive Writing where
  | insert
  | update

/-- The parameter whose value a statement writes into a column. -/
def Writing.parameter : Writing → Column → ℕ
  | .insert, .size => 4
  | .insert, .inode => 5
  | .insert, .mode => 6
  | .insert, .mtime => 7
  | .insert, .ctime => 8
  | .insert, .type => 9
  | .update, .size => 3
  | .update, .inode => 4
  | .update, .mode => 5
  | .update, .mtime => 6
  | .update, .ctime => 7
  | .update, .type => 9

abbrev Bindings := ℕ → Int64

def bind (i : ℕ) (value : Except String Int64) (b : Bindings) : Except String Bindings := do
  let v ← value
  return fun j => if j = i then v else b j

/-- The calls of `bind` for the `INSERT`. -/
def bindInsert (v : StatValues) (type : FileType) (b : Bindings) : Except String Bindings := do
  let b ← bind 4 (storeLong v.size) b
  let b ← bind 5 (storeUnsignedLong v.inode) b
  let b ← bind 6 (storeUnsigned v.mode) b
  let b ← bind 7 (storeLong v.mtime) b
  let b ← bind 8 (storeLong v.ctime) b
  bind 9 (storeUnsigned (.ofNat type.code)) b

/-- The calls of `bind` for the `UPDATE`. -/
def bindUpdate (v : StatValues) (type : FileType) (b : Bindings) : Except String Bindings := do
  let b ← bind 3 (storeLong v.size) b
  let b ← bind 4 (storeUnsignedLong v.inode) b
  let b ← bind 5 (storeUnsigned v.mode) b
  let b ← bind 6 (storeLong v.mtime) b
  let b ← bind 7 (storeLong v.ctime) b
  bind 9 (storeUnsigned (.ofNat type.code)) b

def bindFor (v : StatValues) (type : FileType) : Writing → Bindings → Except String Bindings
  | .insert => bindInsert v type
  | .update => bindUpdate v type

/-- The row after a statement with these bindings. -/
def stored (w : Writing) (b : Bindings) (c : Column) : Int64 := b (w.parameter c)

/-- The value at a place of the row. -/
def fetch (row : Column → Int64) (i : ℕ) : Int64 := (columnAt i).elim 0 row

/-- The numbers of a row as the `SELECT` yields them. -/
def readRow (row : Column → Int64) : Except String (StatValues × UInt32) := do
  let size ← getLong (fetch row 3)
  let inode ← getUnsignedLong (fetch row 4)
  let mode ← getUnsigned (fetch row 5)
  let mtime ← getLong (fetch row 6)
  let ctime ← getLong (fetch row 7)
  let type ← getUnsigned (fetch row 8)
  return ({ size := size, inode := inode, mode := mode, mtime := mtime, ctime := ctime }, type)

/-- Writing the numbers of an object, and reading them back. -/
def readBack (w : Writing) (v : StatValues) (type : FileType) (b : Bindings) :
    Except String (StatValues × UInt32) := do
  let b ← bindFor v type w b
  readRow (stored w b)

end Statements

section Limits

/-- The limit up to which `bind` takes an `unsigned long`: the largest number that SQLite can store.
It does not take that number itself. -/
def unsignedLongMax : ℕ := 9223372036854775807

def unsignedMax : ℕ := 2147483647

variable {v : StatValues}

theorem storeUnsignedLong_of_lt {value : UInt64} (h : value.toNat < unsignedLongMax) :
    storeUnsignedLong value = .ok value.toInt64 := by
  rw [unsignedLongMax] at h
  rw [storeUnsignedLong, bindUnsignedLong, if_neg (by omega)]
  rfl

theorem storeUnsignedLong_of_ge {value : UInt64} (h : unsignedLongMax ≤ value.toNat) :
    storeUnsignedLong value =
      .error ("Content sqlite3_uint64 to bind too long (" ++ toString value.toNat ++ ")") := by
  rw [unsignedLongMax] at h
  rw [storeUnsignedLong, bindUnsignedLong, if_pos h]
  rfl

theorem storeUnsigned_of_lt {value : UInt32} (h : value.toNat < unsignedMax) :
    storeUnsigned value = .ok value.toInt32.toInt64 := by
  rw [unsignedMax] at h
  rw [storeUnsigned, bindUnsigned, if_neg (by omega)]
  rfl

theorem storeUnsigned_of_ge {value : UInt32} (h : unsignedMax ≤ value.toNat) :
    storeUnsigned value =
      .error ("Content unsigned int to bind too long (" ++ toString value.toNat ++ ")") := by
  rw [unsignedMax] at h
  rw [storeUnsigned, bindUnsigned, if_pos h]
  rfl

theorem getUnsignedLong_toInt64 {value : UInt64} (h : value.toNat < unsignedLongMax) :
    getUnsignedLong value.toInt64 = .ok value := by
  have hnonneg : ¬ value.toInt64 < 0 := by
    have htoInt : value.toInt64.toInt = value.toNat :=
      BitVec.toInt_eq_toNat_of_lt (x := value.toBitVec) (by
        rw [unsignedLongMax] at h
        rw [UInt64.toNat_toBitVec]
        omega)
    rw [Int64.lt_iff_toInt_lt, htoInt, Int64.toInt_zero]
    omega
  rw [getUnsignedLong, if_neg hnonneg, UInt64.toUInt64_toInt64]

theorem getUnsigned_toInt64 {value : UInt32} (h : value.toNat < unsignedMax) :
    getUnsigned value.toInt32.toInt64 = .ok value := by
  have hnonneg : ¬ value.toInt32 < 0 := by
    have htoInt : value.toInt32.toInt = value.toNat :=
      BitVec.toInt_eq_toNat_of_lt (x := value.toBitVec) (by
        rw [unsignedMax] at h
        rw [UInt32.toNat_toBitVec]
        omega)
    rw [Int32.lt_iff_toInt_lt, htoInt, Int32.toInt_zero]
    omega
  rw [getUnsigned, columnInt, Int32.toInt32_toInt64]
  simp only [if_neg hnonneg, UInt32.toUInt32_toInt32]

theorem type_lt (type : FileType) : (UInt32.ofNat type.code).toNat < unsignedMax := by
  cases type <;> decide

/-- Every statement writes each column from its own parameter, and every column is read from its
own place. -/
theorem readBack_eq (w : Writing) (v : StatValues) (type : FileType) (b : Bindings)
    (hinode : v.inode.toNat < unsignedLongMax) (hmode : v.mode.toNat < unsignedMax) :
    readBack w v type b = .ok (v, .ofNat type.code) := by
  have hrow : ∀ row : Column → Int64, row .size = v.size → row .inode = v.inode.toInt64 →
      row .mode = v.mode.toInt32.toInt64 → row .mtime = v.mtime → row .ctime = v.ctime →
      row .type = (UInt32.ofNat type.code).toInt32.toInt64 →
      readRow row = .ok (v, .ofNat type.code) := by
    intro row hsize hino hmod hmtime hctime htype
    simp only [readRow, fetch, columnAt, Option.elim, hsize, hino, hmod, hmtime, hctime, htype,
      getUnsignedLong_toInt64 hinode, getUnsigned_toInt64 hmode, getUnsigned_toInt64 (type_lt type)]
    rfl
  cases w with
  | insert =>
    simp only [readBack, bindFor, bindInsert, bind, storeUnsignedLong_of_lt hinode,
      storeUnsigned_of_lt hmode, storeUnsigned_of_lt (type_lt type)]
    exact hrow _ rfl rfl rfl rfl rfl rfl
  | update =>
    simp only [readBack, bindFor, bindUpdate, bind, storeUnsignedLong_of_lt hinode,
      storeUnsigned_of_lt hmode, storeUnsigned_of_lt (type_lt type)]
    exact hrow _ rfl rfl rfl rfl rfl rfl

/-- What `bind` says of the first number that it does not take. -/
def tooLong (v : StatValues) : String :=
  if unsignedLongMax ≤ v.inode.toNat then
    "Content sqlite3_uint64 to bind too long (" ++ toString v.inode.toNat ++ ")"
  else "Content unsigned int to bind too long (" ++ toString v.mode.toNat ++ ")"

/-- A number behind the limits is refused before the statement is run. -/
theorem bindFor_error (w : Writing) (v : StatValues) (type : FileType) (b : Bindings)
    (h : unsignedLongMax ≤ v.inode.toNat ∨ unsignedMax ≤ v.mode.toNat) :
    bindFor v type w b = .error (tooLong v) := by
  rcases Nat.lt_or_ge v.inode.toNat unsignedLongMax with hinode | hinode
  · have hmode := storeUnsigned_of_ge (h.resolve_left (by omega))
    rw [tooLong, if_neg (by omega)]
    cases w with
    | insert =>
      simp only [bindFor, bindInsert, bind, storeUnsignedLong_of_lt hinode, hmode]
      rfl
    | update =>
      simp only [bindFor, bindUpdate, bind, storeUnsignedLong_of_lt hinode, hmode]
      rfl
  · rw [tooLong, if_pos hinode]
    cases w with
    | insert =>
      simp only [bindFor, bindInsert, bind, storeUnsignedLong_of_ge hinode]
      rfl
    | update =>
      simp only [bindFor, bindUpdate, bind, storeUnsignedLong_of_ge hinode]
      rfl

/-- Numbers below the limits are read back as they were, and those above are refused with a message
about the first of them. -/
theorem readBack_limits (w : Writing) (v : StatValues) (type : FileType) (b : Bindings) :
    (v.inode.toNat < unsignedLongMax ∧ v.mode.toNat < unsignedMax →
      readBack w v type b = .ok (v, .ofNat type.code)) ∧
    (unsignedLongMax < v.inode.toNat ∨ unsignedMax < v.mode.toNat →
      bindFor v type w b = .error (tooLong v) ∧ readBack w v type b = .error (tooLong v)) := by
  refine ⟨fun h => readBack_eq w v type b h.1 h.2, fun h => ?_⟩
  have hbind := bindFor_error w v type b (h.imp Nat.le_of_lt Nat.le_of_lt)
  refine ⟨hbind, ?_⟩
  rw [readBack, hbind]
  rfl

/-- An inode number that takes all 64 bits. -/
def hugeInode : StatValues where
  size := 0
  inode := 18446744073709551615
  mode := 33188
  mtime := 0
  ctime := 0

theorem hugeInode_refused : bindFor hugeInode .file .insert (fun _ => 0) =
      .error "Content sqlite3_uint64 to bind too long (18446744073709551615)" ∧
    ∀ w b, readBack w hugeInode .file b ≠ .ok (hugeInode, .ofNat FileType.file.code) := by
  refine ⟨rfl, fun w b => ?_⟩
  rw [readBack, bindFor_error w hugeInode .file b (.inl (by decide))]
  exact fun h => by cases h

end Limits

end Ctguard.StoredValues
