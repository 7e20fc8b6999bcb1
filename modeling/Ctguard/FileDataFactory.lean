import Ctguard.AlertTask
import Ctguard.BinaryFormat

/-!
# The examination of an object

`file_data_factory::construct` asks the system about a path and puts down what it learns. The
answers are what the calls return for this path; accounts, digests and the text of a difference
come from outside. An owner without an account is put down under a name of its own, and a target
of a link is cut to what fits into a buffer.
-/

namespace Ctguard.AlertTask

/-- A text as C hands it out: a zero would end it. -/
structure CText where
  text : String
  zero_free : '\x00' ∉ text.toList

/-- What `lstat` says about an object. -/
structure Stat where
  uid : UInt32
  gid : UInt32
  size : ℤ
  mode : UInt32
  ino : UInt64
  mtime : ℤ
  ctime : ℤ

/-- The type of an object, from the bits `S_IFMT` of its mode. -/
def FileType.ofMode (mode : UInt32) : FileType :=
  match mode.toNat / 4096 % 16 with
  | 6 => .blockDevice
  | 2 => .characterDevice
  | 4 => .directory
  | 1 => .fifo
  | 10 => .link
  | 8 => .file
  | 12 => .socket
  | _ => .unknown

/-- The host: `getusername`, `getgroupname`, the digest of SHA-256 and the printed difference of
two contents. -/
structure FileHost where
  username : UInt32 → Except String (Option CText)
  groupname : UInt32 → Except String (Option CText)
  sha256 : Bytes → CText
  unifiedDiff : Bytes → Bytes → String

/-- What comes of reading a file to its end. -/
inductive Reading where
  | notOpened
  | notRead
  | bytes (content : Bytes)

/-- The answers of the calls about one path. A failed call gives nothing. The space for the
digest is not initialised. -/
structure Answers where
  lstat : Option Stat
  reading : Reading
  statTarget : Bool
  readlink : Option {target : Bytes // 0 ∉ target}
  uninitialised : String

/-- The table `diskscan-diffdata`. -/
abbrev DiffTable := Std.ExtTreeMap String Bytes

def unknownName : String := "!unknown"

/-- The name under which an owner is put down. -/
def shownName (account : Option CText) : String := (account.map CText.text).getD unknownName

def bindBytes (value : Bytes) : Except String Unit :=
  if 2147483647 ≤ value.length then
    .error ("Content string to bind too long (" ++ toString value.length ++ ")")
  else .ok ()

/-- The bytes of a target, as the characters of the same numbers. -/
def targetText (target : Bytes) : String :=
  String.ofList (target.map Char.ofUInt8)

section Construct

variable (host : FileHost) (maxDiffSize : UInt32) (answers : Answers) (diffs : DiffTable)

/-- The stored content of a file is replaced, and the difference is put down. -/
def storeContent (fd : FileData) (content : Bytes) : Except String (FileData × DiffTable) := do
  match diffs[fd.path]? with
  | some stored =>
    bindBytes content
    bindText fd.path
    let diff := if stored = [] then "" else host.unifiedDiff stored content
    return ({ fd with diff := diff }, diffs.insert fd.path content)
  | none =>
    bindText fd.path
    bindBytes content
    return (fd, diffs.insert fd.path content)

/-- The content of a file is put down as a digest, and compared with the stored one, if it is
text. -/
def readFile (fd : FileData) (checkDiff : Bool) : Except String (FileData × DiffTable) := do
  let computeDiff := checkDiff && decide (fd.size < maxDiffSize.toNat)
  match answers.reading with
  | .notOpened => return (fd, diffs)
  | .notRead =>
    if computeDiff then
      bindText fd.path
    return (fd, diffs)
  | .bytes content =>
    if computeDiff then
      bindText fd.path
    let fd := { fd with sha256 := (host.sha256 content).text, contentChecked := true }
    if computeDiff && !content.contains 0 then storeContent host diffs fd content
    else return (fd, diffs)

/-- The buffer for a target holds 255 bytes and the zero. -/
def readLink (fd : FileData) : FileData :=
  let fd := { fd with deadLnk := !answers.statTarget }
  match answers.readlink with
  | none => fd
  | some target =>
    { fd with target := targetText (target.val.take 255), contentChecked := true }

def construct (path : String) (checkContent checkDiff : Bool) :
    Except String (Option FileData × DiffTable) := do
  if path = "" then
    return (none, diffs)
  match answers.lstat with
  | none =>
    return (some
      { path := path, existing := false, contentChecked := true, user := "null", group := "null",
        sha256 := "\x00" ++ answers.uninitialised }, diffs)
  | some s =>
    let user ← host.username s.uid
    let group ← host.groupname s.gid
    let fd : FileData :=
      { path := path, existing := true, user := shownName user, group := shownName group,
        size := s.size, mode := s.mode, inode := s.ino, mtime := s.mtime, ctime := s.ctime,
        type := .ofMode s.mode, sha256 := answers.uninitialised }
    if checkContent ∧ fd.type = .file then
      let (fd, diffs) ← readFile host maxDiffSize answers diffs fd checkDiff
      return (some fd, diffs)
    else if checkContent ∧ fd.type = .link then return (some (readLink answers fd), diffs)
    else return (some fd, diffs)

end Construct

section Examined

variable {host : FileHost} {maxDiffSize : UInt32} {answers : Answers} {diffs diffs' : DiffTable}
  {path : String} {checkContent checkDiff : Bool} {fd fd' : FileData} {s : Stat}

/-- What the record of an existing object says about it. Only files and links have a content;
what was not looked at is left empty, or uninitialised for a digest. -/
structure Examined (host : FileHost) (answers : Answers) (s : Stat) (path : String)
    (checkContent : Bool) (fd : FileData) : Prop where
  path_eq : fd.path = path
  existing : fd.existing = true
  user : ∃ account, host.username s.uid = .ok account ∧ fd.user = shownName account
  group : ∃ account, host.groupname s.gid = .ok account ∧ fd.group = shownName account
  size : fd.size = s.size
  mode : fd.mode = s.mode
  inode : fd.inode = s.ino
  mtime : fd.mtime = s.mtime
  ctime : fd.ctime = s.ctime
  type : fd.type = .ofMode s.mode
  sha256 : fd.type = .file → fd.contentChecked = true →
    ∃ content, answers.reading = .bytes content ∧ fd.sha256 = (host.sha256 content).text
  target : fd.type = .link → fd.contentChecked = true →
    ∃ target, answers.readlink = some target ∧ fd.target = targetText (target.val.take 255)
  target_empty : fd.type ≠ .link ∨ fd.contentChecked = false → fd.target = ""
  checked_file : checkContent = true → fd.type = .file →
    ∀ content, answers.reading = .bytes content → fd.contentChecked = true
  checked_link : checkContent = true → fd.type = .link →
    ∀ target, answers.readlink = some target → fd.contentChecked = true
  checked_only : fd.contentChecked = true → checkContent = true ∧ (fd.type = .file ∨ fd.type = .link)

theorem bind_ok {α β : Type} {x : Except String α} {f : α → Except String β} {b : β}
    (h : x >>= f = .ok b) : ∃ a, x = .ok a ∧ f a = .ok b := by
  cases x with
  | error what => cases h
  | ok a => exact ⟨a, rfl, h⟩

theorem storeContent_eq_ok {content : Bytes}
    (h : storeContent host diffs fd content = .ok (fd', diffs')) :
    fd' = { fd with diff := fd'.diff } := by
  rw [storeContent] at h
  split at h
  · obtain ⟨-, -, h⟩ := bind_ok h
    obtain ⟨-, -, h⟩ := bind_ok h
    cases h
    rfl
  · obtain ⟨-, -, h⟩ := bind_ok h
    obtain ⟨-, -, h⟩ := bind_ok h
    cases h
    rfl

/-- Reading a file adds its digest, and a difference for the alert. -/
theorem readFile_eq_ok
    (h : readFile host maxDiffSize answers diffs fd checkDiff = .ok (fd', diffs')) :
    (fd' = fd ∧ ∀ content, answers.reading ≠ .bytes content) ∨
      ∃ content, answers.reading = .bytes content ∧ fd' = { fd with
        sha256 := (host.sha256 content).text, contentChecked := true, diff := fd'.diff } := by
  rw [readFile] at h
  cases hreading : answers.reading with
  | notOpened =>
    rw [hreading] at h
    cases h
    exact .inl ⟨rfl, by simp⟩
  | notRead =>
    simp only [hreading] at h
    split at h
    · obtain ⟨-, -, h⟩ := bind_ok h
      cases h
      exact .inl ⟨rfl, by simp⟩
    · cases h
      exact .inl ⟨rfl, by simp⟩
  | bytes content =>
    refine .inr ⟨content, rfl, ?_⟩
    simp only [hreading] at h
    split at h
    · obtain ⟨-, -, h⟩ := bind_ok h
      split at h
      · exact storeContent_eq_ok h
      · cases h
        rfl
    · split at h
      · exact storeContent_eq_ok h
      · cases h
        rfl

/-- What is put down before the content is looked at. -/
def statRecord (path : String) (s : Stat) (user group : Option CText) (digest : String) :
    FileData :=
  { path := path, existing := true, user := shownName user, group := shownName group,
    size := s.size, mode := s.mode, inode := s.ino, mtime := s.mtime, ctime := s.ctime,
    type := .ofMode s.mode, sha256 := digest }

section Records

variable {user group : Option CText} (huser : host.username s.uid = .ok user)
  (hgroup : host.groupname s.gid = .ok group)

include huser hgroup

/-- Only what comes of the content has to be checked. -/
theorem examined_record {digest target diff : String} {checked dead : Bool}
    (hdigest : FileType.ofMode s.mode = .file → checked = true →
      ∃ content, answers.reading = .bytes content ∧ digest = (host.sha256 content).text)
    (htarget : FileType.ofMode s.mode = .link → checked = true →
      ∃ link, answers.readlink = some link ∧ target = targetText (link.val.take 255))
    (hempty : FileType.ofMode s.mode ≠ .link ∨ checked = false → target = "")
    (hfile : checkContent = true → FileType.ofMode s.mode = .file →
      ∀ content, answers.reading = .bytes content → checked = true)
    (hlink : checkContent = true → FileType.ofMode s.mode = .link →
      ∀ link, answers.readlink = some link → checked = true)
    (honly : checked = true → checkContent = true ∧
      (FileType.ofMode s.mode = .file ∨ FileType.ofMode s.mode = .link)) :
    Examined host answers s path checkContent
      { statRecord path s user group digest with
        target := target, diff := diff, contentChecked := checked, deadLnk := dead } where
  path_eq := rfl
  existing := rfl
  user := ⟨user, huser, rfl⟩
  group := ⟨group, hgroup, rfl⟩
  size := rfl
  mode := rfl
  inode := rfl
  mtime := rfl
  ctime := rfl
  type := rfl
  sha256 := hdigest
  target := htarget
  target_empty := hempty
  checked_file := hfile
  checked_link := hlink
  checked_only := honly

/-- A record without content says what there was to learn, if there was no content. -/
theorem examined_unchecked (dead : Bool)
    (hfile : checkContent = true → FileType.ofMode s.mode = .file →
      ∀ content, answers.reading ≠ .bytes content)
    (hlink : checkContent = true → FileType.ofMode s.mode = .link →
      ∀ link, answers.readlink ≠ some link) :
    Examined host answers s path checkContent
      { statRecord path s user group answers.uninitialised with deadLnk := dead } := by
  apply examined_record huser hgroup
  · exact fun _ hchecked => Bool.noConfusion hchecked
  · exact fun _ hchecked => Bool.noConfusion hchecked
  · exact fun _ => rfl
  · exact fun hcheck htype content hreading => absurd hreading (hfile hcheck htype content)
  · exact fun hcheck htype link hread => absurd hread (hlink hcheck htype link)
  · exact fun hchecked => Bool.noConfusion hchecked

theorem examined_file {content : Bytes} (diff : String) (hcheck : checkContent = true)
    (htype : FileType.ofMode s.mode = .file) (hreading : answers.reading = .bytes content) :
    Examined host answers s path checkContent
      { statRecord path s user group (host.sha256 content).text with
        diff := diff, contentChecked := true } := by
  have hnot : FileType.ofMode s.mode ≠ .link := by simp [htype]
  apply examined_record huser hgroup
  · exact fun _ _ => ⟨content, hreading, rfl⟩
  · exact fun hlink => absurd hlink hnot
  · exact fun _ => rfl
  · exact fun _ _ _ _ => rfl
  · exact fun _ hlink => absurd hlink hnot
  · exact fun _ => ⟨hcheck, .inl htype⟩

theorem examined_link {link : {target : Bytes // 0 ∉ target}} (dead : Bool)
    (hcheck : checkContent = true) (htype : FileType.ofMode s.mode = .link)
    (hread : answers.readlink = some link) :
    Examined host answers s path checkContent
      { statRecord path s user group answers.uninitialised with
        deadLnk := dead, target := targetText (link.val.take 255), contentChecked := true } := by
  have hnot : FileType.ofMode s.mode ≠ .file := by simp [htype]
  apply examined_record huser hgroup
  · exact fun hfile => absurd hfile hnot
  · exact fun _ _ => ⟨link, hread, rfl⟩
  · rintro (hother | hchecked)
    · exact absurd htype hother
    · exact Bool.noConfusion hchecked
  · exact fun _ hfile => absurd hfile hnot
  · exact fun _ _ _ _ => rfl
  · exact fun _ => ⟨hcheck, .inr htype⟩

end Records

theorem construct_examined (hstat : answers.lstat = some s)
    (h : construct host maxDiffSize answers diffs path checkContent checkDiff =
      .ok (some fd, diffs')) : Examined host answers s path checkContent fd := by
  rw [construct] at h
  split at h
  · cases h
  simp only [hstat] at h
  obtain ⟨user, huser, h⟩ := bind_ok h
  obtain ⟨group, hgroup, h⟩ := bind_ok h
  split at h
  case isTrue hfile =>
    obtain ⟨hcheck, htype⟩ := hfile
    obtain ⟨⟨fd', diffs''⟩, hread, h⟩ := bind_ok h
    cases h
    rcases readFile_eq_ok hread with ⟨rfl, hnot⟩ | ⟨content, hreading, heq⟩
    · refine examined_unchecked huser hgroup false (fun _ _ => hnot) fun _ hlink => ?_
      exact FileType.noConfusion (htype.symm.trans hlink)
    · rw [heq]
      exact examined_file huser hgroup _ hcheck htype hreading
  case isFalse hfile =>
    have hnotFile : checkContent = true → FileType.ofMode s.mode = .file →
        ∀ content, answers.reading ≠ .bytes content :=
      fun hcheck htype => absurd ⟨hcheck, htype⟩ hfile
    split at h
    case isTrue hlink =>
      cases h
      rw [readLink]
      cases hread : answers.readlink with
      | none =>
        refine examined_unchecked huser hgroup _ hnotFile fun _ _ target hsome => ?_
        rw [hread] at hsome
        cases hsome
      | some target => exact examined_link huser hgroup _ hlink.1 hlink.2 hread
    case isFalse hlink =>
      cases h
      exact examined_unchecked huser hgroup false hnotFile
        fun hcheck htype => absurd ⟨hcheck, htype⟩ hlink

end Examined

end Ctguard.AlertTask
