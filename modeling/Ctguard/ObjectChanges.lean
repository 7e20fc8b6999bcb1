import Ctguard.FileDataFactory
import Ctguard.PendingInserts

/-!
# Which changes of an object are reported

The comparison with the row is made on derived data: names instead of ids, a digest instead of
the content, and what of a target fits into the buffer. Two examinations differ for it exactly if
the objects differ up to what these leave out, namely which of the owners without an account it
is, and all but the first 255 bytes of a target.
-/

namespace Ctguard.AlertTask

variable {unitTest : Bool} {blockSize : ℕ} {s s' : State} {fd fd' : FileData} {flags : Flags}
  {a : Attributes}

section Compare

/-- The row of an object, as far as it is compared. A digest is that of a file, a target that of a
link. -/
structure Records (a : Attributes) (fd : FileData) : Prop where
  user : a.read.user = fd.user
  group : a.read.group = fd.group
  size : a.size = fd.size
  mode : a.mode = fd.mode
  sha256 : fd.type = .file → fd.contentChecked = true → a.read.sha256 = fd.sha256
  target : fd.type = .link → fd.contentChecked = true → a.read.target = fd.target
  type : a.type = fd.type.code

/-- There is no alert about the object exactly if its row is up to date that far. -/
theorem changed_eq_false_iff : changed unitTest a fd = false ↔ Records a fd := by
  rw [changed, List.any_eq_false]
  constructor
  · intro h
    constructor
    all_goals by_contra hcontra
    · exact h (.user a.read.user fd.user) (by simp [changes, hcontra]) rfl
    · exact h (.group a.read.group fd.group) (by simp [changes, hcontra]) rfl
    · exact h (.size a.size fd.size) (by simp [changes, Attributes.read, hcontra]) rfl
    · exact h (.mode a.mode fd.mode) (by simp [changes, Attributes.read, hcontra]) rfl
    · rw [Classical.not_imp, Classical.not_imp] at hcontra
      obtain ⟨hfile, hchecked, hne⟩ := hcontra
      exact h (.sha256 a.read.sha256 fd.sha256)
        (by simp [changes, hfile, hchecked, Ne.symm hne]) rfl
    · rw [Classical.not_imp, Classical.not_imp] at hcontra
      obtain ⟨hlink, hchecked, hne⟩ := hcontra
      exact h (.target a.read.target fd.target) (by simp [changes, hlink, hchecked, hne]) rfl
    · exact h (.type a.type fd.type.code) (by simp [changes, Attributes.read, hcontra]) rfl
  · intro h c hc
    have hsha256 : ¬ (fd.type = .file ∧ fd.contentChecked = true ∧ fd.sha256 ≠ a.read.sha256) :=
      fun hne => hne.2.2 (h.sha256 hne.1 hne.2.1).symm
    have htarget : ¬ (fd.type = .link ∧ fd.contentChecked = true ∧ a.read.target ≠ fd.target) :=
      fun hne => hne.2.2 (h.target hne.1 hne.2.1)
    simp only [changes, List.mem_flatten, List.mem_cons, List.not_mem_nil, or_false] at hc
    obtain ⟨line, hline, hmem⟩ := hc
    rcases hline with rfl | rfl | rfl | rfl | rfl | rfl | rfl | rfl | rfl | rfl
    · simp [h.user] at hmem
    · simp [h.group] at hmem
    · simp [Attributes.read, h.size] at hmem
    · simp [Attributes.read, h.mode] at hmem
    · split at hmem
      · simp_all [Change.counts]
      · cases hmem
    · split at hmem
      · simp_all [Change.counts]
      · cases hmem
    · split at hmem
      · simp_all [Change.counts]
      · cases hmem
    · rw [if_neg hsha256] at hmem
      cases hmem
    · rw [if_neg htarget] at hmem
      cases hmem
    · simp [Attributes.read, h.type] at hmem

/-- The columns hold just what was found out. A digest that was not computed is not put down. -/
structure Shows (a : Attributes) (fd : FileData) : Prop where
  user : a.user = fd.user
  group : a.group = fd.group
  size : a.size = fd.size
  inode : a.inode = fd.inode
  mode : a.mode = fd.mode
  mtime : a.mtime = fd.mtime
  ctime : a.ctime = fd.ctime
  type : a.type = fd.type.code
  sha256 : fd.contentChecked = true → a.sha256 = fd.sha256
  target : a.target = fd.target

theorem shows_updated (a : Attributes) (fd : FileData) : Shows (a.updated fd) fd := by
  constructor
  all_goals simp [Attributes.updated, FileData.attributes]
  intro hchecked
  simp [hchecked]

theorem shows_attributes (fd : FileData) : Shows fd.attributes fd := by
  constructor
  all_goals simp [FileData.attributes]
  intro hchecked
  simp [hchecked]

/-- What `alert_task` does about an existing object that has a row. -/
theorem handleFileData_found {row : Row} (hrow : s.db[fd.path]? = some row)
    (hexists : fd.existing = true) (hstorable : storable fd.path (row.attributes.updated fd) = true)
    (hchanged : changed unitTest row.attributes fd = true) :
    handleFileData unitTest blockSize fd flags s = .ok { s with
      db := s.db.insert fd.path { attributes := row.attributes.updated fd }
      alerts := s.alerts ++ [.changed fd (changes unitTest row.attributes fd)] } := by
  have hbind : bindUpdate fd.path (row.attributes.updated fd) = .ok () :=
    bindUpdate_eq_ok.mpr hstorable
  have hbound : bindText fd.path = .ok () := (bind_eq_ok.mp (bindInsert_eq_ok.mpr hstorable)).1
  simp only [handleFileData, hbound, hrow, hexists, compareRow, hchanged, if_true, hbind]

/-- The states differ in no row, nothing that waits, and no alert: only in which rows count as
scanned, and in what is confirmed later. -/
structure Alike (s t : State) : Prop where
  rows : rows t.db = rows s.db
  inScan : t.inScan = s.inScan
  insertSet : t.insertSet = s.insertSet
  alerts : t.alerts = s.alerts

theorem Alike.refl (s : State) : Alike s s := ⟨rfl, rfl, rfl, rfl⟩

/-- An object that is up to date makes no difference. -/
theorem compareRow_unchanged {row : Row} (s : State)
    (h : changed unitTest row.attributes fd = false) :
    ∃ s', compareRow unitTest blockSize fd flags row s = .ok s' ∧ Alike s s' := by
  simp only [compareRow, h, Bool.false_eq_true, if_false]
  split
  · split
    · split
      · exact ⟨_, rfl, ⟨rows_doUpdateQueue _, rfl, rfl, rfl⟩⟩
      · exact ⟨_, rfl, ⟨rfl, rfl, rfl, rfl⟩⟩
    · exact ⟨_, rfl, ⟨rows_confirm _ _, rfl, rfl, rfl⟩⟩
  · exact ⟨_, rfl, .refl s⟩

theorem handleFileData_recorded (s : State) (hrow : rows s.db fd.path = some a)
    (hexists : fd.existing = true) (hbound : bindText fd.path = .ok ()) (hrecords : Records a fd) :
    ∃ s', handleFileData unitTest blockSize fd flags s = .ok s' ∧ Alike s s' := by
  obtain ⟨row, hfound, rfl⟩ := Option.map_eq_some_iff.mp hrow
  simp only [handleFileData, hbound, hfound, hexists, if_true]
  exact compareRow_unchanged s (changed_eq_false_iff.mpr hrecords)

end Compare

section Derived

variable {host : FileHost} {path : String}

/-- A successful examination of an existing object and its content. -/
structure Observation (host : FileHost) (path : String) where
  answers : Answers
  stat : Stat
  fd : FileData
  lstat : answers.lstat = some stat
  constructed : ∃ maxDiffSize diffs checkDiff diffs',
    construct host maxDiffSize answers diffs path true checkDiff = .ok (some fd, diffs')
  reads : FileType.ofMode stat.mode = .file → ∃ content, answers.reading = .bytes content
  reads_link : FileType.ofMode stat.mode = .link → ∃ target, answers.readlink = some target

theorem Observation.examined (o : Observation host path) :
    Examined host o.answers o.stat path true o.fd := by
  obtain ⟨maxDiffSize, diffs, checkDiff, diffs', h⟩ := o.constructed
  exact construct_examined o.lstat h

/-- There is no account, or one with the name that stands for none. -/
def Unnamed (names : UInt32 → Except String (Option CText)) (id : UInt32) : Prop :=
  ∀ account, names id = .ok account → shownName account = unknownName

/-- Different accounts have different names. -/
def DistinctNames (names : UInt32 → Except String (Option CText)) : Prop :=
  ∀ i j n m, names i = .ok (some n) → names j = .ok (some m) → n.text = m.text → i = j

theorem shownName_eq_iff {names : UInt32 → Except String (Option CText)}
    (hnames : DistinctNames names) {i j : UInt32} {x y : Option CText} (hx : names i = .ok x)
    (hy : names j = .ok y) :
    shownName x = shownName y ↔ i = j ∨ (Unnamed names i ∧ Unnamed names j) := by
  have hunnamed : ∀ {k z}, names k = .ok z → (Unnamed names k ↔ shownName z = unknownName) := by
    intro k z hz
    constructor
    · exact fun h => h z hz
    · intro h account haccount
      obtain rfl := Except.ok.inj (hz.symm.trans haccount)
      exact h
  rw [hunnamed hx, hunnamed hy]
  constructor
  · intro heq
    cases x with
    | none => exact .inr ⟨rfl, heq.symm⟩
    | some n =>
      cases y with
      | none => exact .inr ⟨heq, rfl⟩
      | some m => exact .inl (hnames i j n m hx hy heq)
  · rintro (rfl | ⟨hi, hj⟩)
    · obtain rfl := Except.ok.inj (hx.symm.trans hy)
      rfl
    · rw [hi, hj]

theorem targetText_injective : Function.Injective targetText := by
  intro t t' h
  refine List.map_injective_iff.mpr ?_ (String.ofList_injective h)
  intro b b' hb
  have hval : b.toUInt32.toNat = b'.toUInt32.toNat :=
    congrArg (fun c : Char => c.val.toNat) hb
  exact UInt8.toNat_inj.mp (by simpa using hval)

/-- The objects differ in what the comparison can see. -/
def Differ (host : FileHost) (s s' : Stat) (answers answers' : Answers) : Prop :=
  (s.uid ≠ s'.uid ∧ ¬ (Unnamed host.username s.uid ∧ Unnamed host.username s'.uid)) ∨
    (s.gid ≠ s'.gid ∧ ¬ (Unnamed host.groupname s.gid ∧ Unnamed host.groupname s'.gid)) ∨
    s.size ≠ s'.size ∨ s.mode ≠ s'.mode ∨ FileType.ofMode s.mode ≠ FileType.ofMode s'.mode ∨
    (FileType.ofMode s.mode = .file ∧ FileType.ofMode s'.mode = .file ∧
      answers.reading ≠ answers'.reading) ∨
    (FileType.ofMode s.mode = .link ∧ FileType.ofMode s'.mode = .link ∧
      answers.readlink.map (·.val.take 255) ≠ answers'.readlink.map (·.val.take 255))

/-- The contents of two observations have different digests, unless they are the same. -/
def NoCollision (o p : Observation host path) : Prop :=
  ∀ content content', o.answers.reading = .bytes content → p.answers.reading = .bytes content' →
    (host.sha256 content).text = (host.sha256 content').text → content = content'

theorem FileType.code_injective : Function.Injective FileType.code := by
  intro x y h
  cases x <;> cases y <;> first | rfl | cases h

theorem Observation.sha256 (o : Observation host path) (hfile : o.fd.type = .file) :
    ∃ content, o.answers.reading = .bytes content ∧ o.fd.contentChecked = true ∧
      o.fd.sha256 = (host.sha256 content).text := by
  have e := o.examined
  obtain ⟨content, hcontent⟩ := o.reads (e.type.symm.trans hfile)
  have hchecked := e.checked_file rfl hfile content hcontent
  obtain ⟨content', hcontent', hsha256⟩ := e.sha256 hfile hchecked
  exact ⟨content', hcontent', hchecked, hsha256⟩

theorem Observation.target (o : Observation host path) (hlink : o.fd.type = .link) :
    ∃ target, o.answers.readlink = some target ∧ o.fd.contentChecked = true ∧
      o.fd.target = targetText (target.val.take 255) := by
  have e := o.examined
  obtain ⟨target, htarget⟩ := o.reads_link (e.type.symm.trans hlink)
  have hchecked := e.checked_link rfl hlink target htarget
  obtain ⟨target', htarget', htext⟩ := e.target hlink hchecked
  exact ⟨target', htarget', hchecked, htext⟩

theorem Observation.user_iff {o p : Observation host path}
    (husers : DistinctNames host.username) : o.fd.user = p.fd.user ↔
      o.stat.uid = p.stat.uid ∨
        (Unnamed host.username o.stat.uid ∧ Unnamed host.username p.stat.uid) := by
  obtain ⟨account, haccount, huser⟩ := o.examined.user
  obtain ⟨account', haccount', huser'⟩ := p.examined.user
  rw [huser, huser', shownName_eq_iff husers haccount haccount']

theorem Observation.group_iff {o p : Observation host path}
    (hgroups : DistinctNames host.groupname) : o.fd.group = p.fd.group ↔
      o.stat.gid = p.stat.gid ∨
        (Unnamed host.groupname o.stat.gid ∧ Unnamed host.groupname p.stat.gid) := by
  obtain ⟨account, haccount, hgroup⟩ := o.examined.group
  obtain ⟨account', haccount', hgroup'⟩ := p.examined.group
  rw [hgroup, hgroup', shownName_eq_iff hgroups haccount haccount']

theorem Observation.sha256_iff {o p : Observation host path} (hdigest : NoCollision o p)
    (hfile : o.fd.type = .file) (hfile' : p.fd.type = .file) :
    o.fd.sha256 = p.fd.sha256 ↔ o.answers.reading = p.answers.reading := by
  obtain ⟨content, hcontent, -, hsha256⟩ := o.sha256 hfile
  obtain ⟨content', hcontent', -, hsha256'⟩ := p.sha256 hfile'
  rw [hsha256, hsha256', hcontent, hcontent', Reading.bytes.injEq]
  constructor
  · exact hdigest content content' hcontent hcontent'
  · intro heq
    rw [heq]

theorem Observation.target_iff {o p : Observation host path} (hlink : o.fd.type = .link)
    (hlink' : p.fd.type = .link) : o.fd.target = p.fd.target ↔
      o.answers.readlink.map (·.val.take 255) = p.answers.readlink.map (·.val.take 255) := by
  obtain ⟨target, htarget, -, htext⟩ := o.target hlink
  obtain ⟨target', htarget', -, htext'⟩ := p.target hlink'
  rw [htext, htext', htarget, htarget', targetText_injective.eq_iff]
  simp

/-- The row of the first observation is up to date for the second one exactly if the comparison
can see no difference. -/
theorem Observation.records_iff {o p : Observation host path}
    (husers : DistinctNames host.username) (hgroups : DistinctNames host.groupname)
    (hdigest : NoCollision o p) (hrecords : Records a o.fd) :
    Records a p.fd ↔ ¬ Differ host o.stat p.stat o.answers p.answers := by
  have e := o.examined
  have e' := p.examined
  have huser := Observation.user_iff (o := o) (p := p) husers
  have hgroup := Observation.group_iff (o := o) (p := p) hgroups
  simp only [Differ, ← e.size, ← e'.size, ← e.mode, ← e'.mode, not_or]
  rw [e.mode, e'.mode, ← e.type, ← e'.type]
  constructor
  · intro h
    have htype : o.fd.type = p.fd.type :=
      FileType.code_injective (hrecords.type.symm.trans h.type)
    refine ⟨?_, ?_, ?_, ?_, ?_, ?_, ?_⟩
    · rintro ⟨hne, hknown⟩
      exact (huser.mp (hrecords.user.symm.trans h.user)).elim hne hknown
    · rintro ⟨hne, hknown⟩
      exact (hgroup.mp (hrecords.group.symm.trans h.group)).elim hne hknown
    · exact not_not_intro (hrecords.size.symm.trans h.size)
    · rw [← e.mode, ← e'.mode]
      exact not_not_intro (hrecords.mode.symm.trans h.mode)
    · exact not_not_intro htype
    · rintro ⟨hfile, hfile', hne⟩
      obtain ⟨-, -, hchecked, -⟩ := o.sha256 hfile
      obtain ⟨-, -, hchecked', -⟩ := p.sha256 hfile'
      exact hne ((Observation.sha256_iff hdigest hfile hfile').mp
        ((hrecords.sha256 hfile hchecked).symm.trans (h.sha256 hfile' hchecked')))
    · rintro ⟨hlink, hlink', hne⟩
      obtain ⟨-, -, hchecked, -⟩ := o.target hlink
      obtain ⟨-, -, hchecked', -⟩ := p.target hlink'
      exact hne ((Observation.target_iff hlink hlink').mp
        ((hrecords.target hlink hchecked).symm.trans (h.target hlink' hchecked')))
  · rintro ⟨hu, hg, hsize, hmode, htype, hfile, hlink⟩
    rw [not_not] at hsize hmode htype
    constructor
    · rw [hrecords.user, huser]
      by_contra hne
      exact hu (not_or.mp hne)
    · rw [hrecords.group, hgroup]
      by_contra hne
      exact hg (not_or.mp hne)
    · exact hrecords.size.trans hsize
    · rw [hrecords.mode, e.mode, hmode, e'.mode]
    · intro hfile' _
      obtain ⟨-, -, hchecked, -⟩ := o.sha256 (htype.trans hfile')
      rw [hrecords.sha256 (htype.trans hfile') hchecked,
        Observation.sha256_iff hdigest (htype.trans hfile') hfile']
      by_contra hne
      exact hfile ⟨htype.trans hfile', hfile', hne⟩
    · intro hlink' _
      obtain ⟨-, -, hchecked, -⟩ := o.target (htype.trans hlink')
      rw [hrecords.target (htype.trans hlink') hchecked,
        Observation.target_iff (htype.trans hlink') hlink']
      by_contra hne
      exact hlink ⟨htype.trans hlink', hlink', hne⟩
    · rw [hrecords.type, htype]

theorem shownName_zero_free (account : Option CText) : '\x00' ∉ (shownName account).toList := by
  cases account with
  | none => decide
  | some name => exact name.zero_free

theorem targetText_zero_free {target : Bytes} (h : 0 ∉ target) :
    '\x00' ∉ (targetText target).toList := by
  rw [targetText, String.toList_ofList, List.mem_map]
  rintro ⟨b, hb, hzero⟩
  have hval : b.toUInt32.toNat = 0 := congrArg (fun c : Char => c.val.toNat) hzero
  have hb0 : b = 0 := UInt8.toNat_inj.mp (by simpa using hval)
  exact h (hb0 ▸ hb)

/-- The texts that are compared are read back from a row as they were written. -/
structure Clean (fd : FileData) : Prop where
  user : columnText fd.user = fd.user
  group : columnText fd.group = fd.group
  sha256 : fd.type = .file → fd.contentChecked = true → columnText fd.sha256 = fd.sha256
  target : fd.type = .link → fd.contentChecked = true → columnText fd.target = fd.target

theorem Examined.clean {answers : Answers} {stat : Stat} {checkContent : Bool}
    (e : Examined host answers stat path checkContent fd) : Clean fd := by
  obtain ⟨user, -, huser⟩ := e.user
  obtain ⟨group, -, hgroup⟩ := e.group
  constructor
  · rw [huser]
    exact columnText_eq_self (shownName_zero_free user)
  · rw [hgroup]
    exact columnText_eq_self (shownName_zero_free group)
  · intro hfile hchecked
    obtain ⟨content, -, hsha256⟩ := e.sha256 hfile hchecked
    rw [hsha256]
    exact columnText_eq_self (host.sha256 content).zero_free
  · intro hlink hchecked
    obtain ⟨target, -, htext⟩ := e.target hlink hchecked
    rw [htext]
    exact columnText_eq_self
      (targetText_zero_free fun hmem => target.property (List.mem_of_mem_take hmem))

/-- A row that shows an object is up to date when it is read back. -/
theorem Shows.records (h : Shows a fd) (hclean : Clean fd) : Records a fd := by
  constructor
  · rw [Attributes.read, h.user]
    exact hclean.user
  · rw [Attributes.read, h.group]
    exact hclean.group
  · exact h.size
  · exact h.mode
  · intro hfile hchecked
    rw [Attributes.read, h.sha256 hchecked]
    exact hclean.sha256 hfile hchecked
  · intro hlink hchecked
    rw [Attributes.read, h.target]
    exact hclean.target hlink hchecked
  · exact h.type

end Derived

section Reported

variable {host : FileHost} {path : String} {o p : Observation host path} {row : Row}

/-- A change that the comparison can see makes one alert, and the row shows the object as it is
now. If there is none, there is no alert, and the row stays. -/
theorem changed_object_reported (s : State) (row : Row) (husers : DistinctNames host.username)
    (hgroups : DistinctNames host.groupname) (hdigest : NoCollision o p)
    (hrow : s.db[path]? = some row) (hrecords : Records row.attributes o.fd)
    (hbound : bindText path = .ok ()) :
    (Differ host o.stat p.stat o.answers p.answers →
      storable path (row.attributes.updated p.fd) = true → ∃ s' changes row',
        handleFileData unitTest blockSize p.fd flags s = .ok s' ∧
          s'.alerts = s.alerts ++ [.changed p.fd changes] ∧ s'.db[path]? = some row' ∧
          Shows row'.attributes p.fd) ∧
    (¬ Differ host o.stat p.stat o.answers p.answers → ∃ s',
      handleFileData unitTest blockSize p.fd flags s = .ok s' ∧ s'.alerts = s.alerts ∧
        rows s'.db = rows s.db) := by
  have hpath := p.examined.path_eq
  have hiff := o.records_iff (p := p) husers hgroups hdigest hrecords
  have hrow' : s.db[p.fd.path]? = some row := by rwa [hpath]
  constructor
  · intro hdiffer hstorable
    have hstorable' : storable p.fd.path (row.attributes.updated p.fd) = true := by rwa [hpath]
    have hchanged : changed unitTest row.attributes p.fd = true := by
      rw [← Bool.not_eq_false, changed_eq_false_iff, hiff, not_not]
      exact hdiffer
    refine ⟨_, _, ⟨row.attributes.updated p.fd, true⟩, handleFileData_found hrow'
      p.examined.existing hstorable' hchanged, rfl, ?_, shows_updated row.attributes p.fd⟩
    simp [hpath]
  · intro hsame
    have hbound' : bindText p.fd.path = .ok () := by rwa [hpath]
    have hrow'' : rows s.db p.fd.path = some row.attributes := by rw [rows, hrow', Option.map_some]
    obtain ⟨s', hs', halike⟩ :=
      handleFileData_recorded s hrow'' p.examined.existing hbound' (hiff.mpr hsame)
    exact ⟨s', hs', halike.alerts, halike.rows⟩

/-- A host with one account, and with the digests of two contents. -/
def rootHost : FileHost where
  username uid := .ok (if uid = 0 then some ⟨"root", by decide⟩ else none)
  groupname gid := .ok (if gid = 0 then some ⟨"root", by decide⟩ else none)
  sha256 content :=
    if content = [97] then
      ⟨"ca978112ca1bbdcafac231b39a23dc4da786eff8147c4e72b9807785afee48bb", by decide⟩
    else if content = [98] then
      ⟨"3e23e8160039594a33894f6564e1b1348bbd7a0088d42c4acb73eeaed59c009d", by decide⟩
    else ⟨"", by decide⟩
  unifiedDiff _ _ := ""

theorem rootHost_distinctNames :
    DistinctNames rootHost.username ∧ DistinctNames rootHost.groupname := by
  have hnames : DistinctNames rootHost.username := by
    intro i j n m hi hj _
    simp only [rootHost, Except.ok.injEq] at hi hj
    split at hi
    · split at hj
      · simp_all
      · cases hj
    · cases hi
  exact ⟨hnames, hnames⟩

def ownedBy (uid mode : UInt32) (size : ℤ) : Stat where
  uid := uid
  gid := 0
  size := size
  mode := mode
  ino := 7
  mtime := 10
  ctime := 10

def answersOf (s : Stat) : Answers where
  lstat := some s
  reading := .notOpened
  statTarget := true
  readlink := none
  uninitialised := ""

def recordOf (s : Stat) (user : String) : FileData where
  path := "/etc/motd"
  existing := true
  user := user
  group := "root"
  size := s.size
  type := .ofMode s.mode
  inode := s.ino
  mode := s.mode
  mtime := s.mtime
  ctime := s.ctime

/-- A file of one byte. -/
def observedFile (byte : UInt8) : Observation rootHost "/etc/motd" where
  answers := { answersOf (ownedBy 0 33188 1) with reading := .bytes [byte] }
  stat := ownedBy 0 33188 1
  fd := { recordOf (ownedBy 0 33188 1) "root" with
    contentChecked := true, sha256 := (rootHost.sha256 [byte]).text }
  lstat := rfl
  constructed := ⟨0, ∅, false, ∅, rfl⟩
  reads _ := ⟨[byte], rfl⟩
  reads_link h := absurd h (by decide)

/-- A directory whose owner has no account. -/
def observedDirectory (uid : UInt32) (h : uid ≠ 0) : Observation rootHost "/etc/motd" where
  answers := answersOf (ownedBy uid 16877 4096)
  stat := ownedBy uid 16877 4096
  fd := recordOf (ownedBy uid 16877 4096) "!unknown"
  lstat := rfl
  constructed := ⟨0, ∅, false, ∅, by simp [construct, answersOf, ownedBy, rootHost, h]; rfl⟩
  reads h := absurd h (by simp [ownedBy, FileType.ofMode])
  reads_link h := absurd h (by simp [ownedBy, FileType.ofMode])

/-- A target of 256 bytes. -/
def longTarget (last : {b : UInt8 // 0 ≠ b}) : {target : Bytes // 0 ∉ target} where
  val := List.replicate 255 97 ++ [last.val]
  property := by
    rw [List.mem_append, List.mem_replicate, List.mem_singleton]
    rintro (⟨-, h⟩ | h)
    · cases h
    · exact last.property h

def observedLink (last : {b : UInt8 // 0 ≠ b}) : Observation rootHost "/etc/motd" where
  answers := { answersOf (ownedBy 0 41471 256) with
    readlink := some (longTarget last) }
  stat := ownedBy 0 41471 256
  fd := { recordOf (ownedBy 0 41471 256) "root" with
    contentChecked := true
    target := targetText ((longTarget last).val.take 255) }
  lstat := rfl
  constructed := ⟨0, ∅, false, ∅, rfl⟩
  reads h := absurd h (by simp [ownedBy, FileType.ofMode])
  reads_link _ := ⟨_, rfl⟩

/-- The table with the row of an observation. -/
def tableOf (fd : FileData) : Table := (∅ : Table).insert fd.path { attributes := fd.attributes }

theorem changed_object_reported_file : ∃ s' changes row',
    handleFileData false 1000 (observedFile 98).fd {} { db := tableOf (observedFile 97).fd } =
        .ok s' ∧
      s'.alerts = [.changed (observedFile 98).fd changes] ∧ s'.db["/etc/motd"]? = some row' ∧
      Shows row'.attributes (observedFile 98).fd := by
  have hdigest : NoCollision (observedFile 97) (observedFile 98) := by
    rintro content content' hcontent hcontent' hsha256
    cases hcontent
    cases hcontent'
    exact absurd hsha256 (by decide)
  have hrecords : Records (observedFile 97).fd.attributes (observedFile 97).fd := by
    constructor
    all_goals decide +kernel
  have hrow : (tableOf (observedFile 97).fd)["/etc/motd"]? =
      some { attributes := (observedFile 97).fd.attributes } := by
    exact Std.ExtTreeMap.getElem?_insert_self
  refine (changed_object_reported { db := tableOf (observedFile 97).fd }
    { attributes := (observedFile 97).fd.attributes } rootHost_distinctNames.1
    rootHost_distinctNames.2 hdigest hrow hrecords (by decide)).1 ?_ (by decide +kernel)
  refine .inr (.inr (.inr (.inr (.inr (.inl ⟨by decide, by decide, ?_⟩)))))
  intro h
  cases h

/-- Nothing is reported if the comparison can see no difference. -/
theorem not_reported (o p : Observation rootHost "/etc/motd") (hdigest : NoCollision o p)
    (hbound : bindText p.fd.path = .ok ())
    (hsame : ¬ Differ rootHost o.stat p.stat o.answers p.answers) :
    ∃ s', handleFileData false 1000 p.fd {} { db := tableOf o.fd } = .ok s' ∧ s'.alerts = [] := by
  have hrecords := (shows_attributes o.fd).records o.examined.clean
  have hrow : rows (tableOf o.fd) p.fd.path = some o.fd.attributes := by
    have hkey : o.fd.path = p.fd.path := o.examined.path_eq.trans p.examined.path_eq.symm
    rw [← hkey, tableOf, rows_insert, Function.update_self]
  have hrecords' := (o.records_iff rootHost_distinctNames.1 rootHost_distinctNames.2 hdigest
    hrecords).mpr hsame
  obtain ⟨s', hrun, halike⟩ := handleFileData_recorded { db := tableOf o.fd } hrow
    p.examined.existing hbound hrecords'
  exact ⟨s', hrun, halike.alerts⟩

/-- A directory that goes from one owner without an account to another, and a link whose target
changes behind the 255th byte, make no alert. -/
theorem changed_object_not_reported :
    DistinctNames rootHost.username ∧ DistinctNames rootHost.groupname ∧
      (∃ o p : Observation rootHost "/etc/motd", NoCollision o p ∧ o.stat.uid ≠ p.stat.uid ∧
        ∃ s', handleFileData false 1000 p.fd {} { db := tableOf o.fd } = .ok s' ∧
          s'.alerts = []) ∧
      ∃ o p : Observation rootHost "/etc/motd", NoCollision o p ∧
        FileType.ofMode p.stat.mode = .link ∧ o.answers.readlink ≠ p.answers.readlink ∧
        ∃ s', handleFileData false 1000 p.fd {} { db := tableOf o.fd } = .ok s' ∧
          s'.alerts = [] := by
  refine ⟨rootHost_distinctNames.1, rootHost_distinctNames.2, ?_, ?_⟩
  · have hdigest : NoCollision (observedDirectory 5000 (by decide))
        (observedDirectory 5001 (by decide)) := by
      intro content _ hcontent
      cases hcontent
    refine ⟨_, _, hdigest, by decide, not_reported _ _ hdigest (by decide) ?_⟩
    have hunnamed : ∀ uid, uid ≠ 0 → Unnamed rootHost.username uid := by
      intro uid huid account haccount
      have hnone : rootHost.username uid = .ok none := by simp [rootHost, huid]
      obtain rfl := Except.ok.inj (hnone.symm.trans haccount)
      rfl
    simp [Differ, observedDirectory, ownedBy, answersOf, hunnamed]
  · have hdigest : NoCollision (observedLink ⟨98, by decide⟩) (observedLink ⟨99, by decide⟩) := by
      intro content _ hcontent
      cases hcontent
    refine ⟨_, _, hdigest, by decide, ?_, not_reported _ _ hdigest (by decide) ?_⟩
    · intro h
      have hval := congrArg Subtype.val (Option.some.inj h)
      cases List.append_cancel_left hval
    · have htake : ∀ last, (observedLink last).answers.readlink.map (·.val.take 255) =
          some (List.replicate 255 97) :=
        fun last => congrArg some (List.take_left' List.length_replicate)
      rintro (⟨h, -⟩ | ⟨h, -⟩ | h | h | h | ⟨-, -, h⟩ | ⟨-, -, h⟩)
      · exact h rfl
      · exact h rfl
      · exact h rfl
      · exact h rfl
      · exact h rfl
      · exact h rfl
      · exact h ((htake _).trans (htake _).symm)

end Reported

end Ctguard.AlertTask
