import Ctguard.ObjectChanges

/-!
# What attribute events do to the recorded content

The full update of a row writes all columns. For a message without a look at the content it
keeps the digest as it was read, but it writes the target that the message does not have. So a
row is disturbed exactly by such a message that makes an alert while the row has a target, or a
digest that ends before a zero.
-/

namespace Ctguard.AlertTask

variable {unitTest : Bool} {blockSize : ℕ} {s s' : State} {fd : FileData} {flags : Flags}
  {a : Attributes} {host : FileHost} {path : String}

section Object

/-- What an object keeps while its attributes change. -/
structure KeptObject where
  type : FileType
  content : Bytes
  target : {target : Bytes // 0 ∉ target}

/-- The result of an examination of the object, with or without a look at its content. -/
def Snapshot (host : FileHost) (object : KeptObject) (path : String) (fd : FileData) : Prop :=
  ∃ answers stat maxDiffSize diffs checkContent checkDiff diffs',
    construct host maxDiffSize answers diffs path checkContent checkDiff =
        .ok (some fd, diffs') ∧
      answers.lstat = some stat ∧ FileType.ofMode stat.mode = object.type ∧
      (∀ content, answers.reading = .bytes content → content = object.content) ∧
      ∀ target, answers.readlink = some target → target = object.target

/-- The row has the content of the object. -/
def Holds (host : FileHost) (object : KeptObject) (a : Attributes) : Prop :=
  (object.type = .file → a.read.sha256 = (host.sha256 object.content).text) ∧
    (object.type = .link → a.read.target = targetText (object.target.val.take 255))

/-- A line about the content of an object. -/
def Change.content : Change → Bool
  | .sha256 _ _ => true
  | .target _ _ => true
  | _ => false

/-- No alert about the content, and a message without a look at it leaves it in the row. -/
def Undisturbed (path : String) (fd : FileData) (s s' : State) : Prop :=
  (∀ fd' cs, .changed fd' cs ∈ s'.alerts.drop s.alerts.length → ∀ c ∈ cs, c.content = false) ∧
    (fd.contentChecked = false → ∀ row, s.db[path]? = some row → ∃ row', s'.db[path]? = some row' ∧
      row'.attributes.sha256 = row.attributes.sha256 ∧
      row'.attributes.target = row.attributes.target)

variable {object : KeptObject}

/-- What a snapshot says about the content. -/
structure Reports (host : FileHost) (object : KeptObject) (path : String) (fd : FileData) : Prop where
  path_eq : fd.path = path
  existing : fd.existing = true
  type : fd.type = object.type
  sha256 : fd.type = .file → fd.contentChecked = true →
    fd.sha256 = (host.sha256 object.content).text
  target : fd.type = .link → fd.contentChecked = true →
    fd.target = targetText (object.target.val.take 255)
  unchecked : fd.contentChecked = false → fd.target = ""
  checked : fd.contentChecked = true → fd.type = .file ∨ fd.type = .link

theorem Snapshot.reports (h : Snapshot host object path fd) : Reports host object path fd := by
  obtain ⟨answers, stat, maxDiffSize, diffs, checkContent, checkDiff, diffs', hconstruct, hstat,
    htype, hcontent, htarget⟩ := h
  have e := construct_examined hstat hconstruct
  constructor
  · exact e.path_eq
  · exact e.existing
  · exact e.type.trans htype
  · intro hfile hchecked
    obtain ⟨content, hreading, hsha256⟩ := e.sha256 hfile hchecked
    rw [hsha256, hcontent content hreading]
  · intro hlink hchecked
    obtain ⟨target, hread, htext⟩ := e.target hlink hchecked
    rw [htext, htarget target hread]
  · exact fun hunchecked => e.target_empty (.inr hunchecked)
  · exact fun hchecked => (e.checked_only hchecked).2

end Object

section Step

variable {object : KeptObject} {x : FileData × Flags}

/-- A message without a look at the content finds no difference, or there is no target, and the
digest is read as it is. -/
def Harmless (unitTest : Bool) (fd : FileData) (a : Attributes) : Prop :=
  changed unitTest a fd = true → a.target = "" ∧ columnText a.sha256 = a.sha256

/-- What one message about the object does to its row. -/
theorem snapshot_step (hfd : Reports host object path x.1) {row : Row}
    (hrow : s.db[path]? = some row) (h : fileDataStep unitTest blockSize s x = some s') :
    ∃ row', s'.db[path]? = some row' ∧
      ((changed unitTest row.attributes x.1 = false ∧ row'.attributes = row.attributes ∧
        s'.alerts = s.alerts) ∨
      (changed unitTest row.attributes x.1 = true ∧
        row'.attributes = row.attributes.updated x.1 ∧
        s'.alerts = s.alerts ++ [.changed x.1 (changes unitTest row.attributes x.1)])) := by
  obtain ⟨-, hhandled⟩ := handleFileData_handled (fileDataStep_eq_some.mp h)
  have hrow' : s.db[x.1.path]? = some row := by rwa [hfd.path_eq]
  have hkept : ∀ {db : Table}, rows db = rows s.db →
      ∃ row', db[path]? = some row' ∧ row'.attributes = row.attributes := by
    intro db hrows
    have hsome := congrFun hrows path
    rw [rows, rows, hrow] at hsome
    exact Option.map_eq_some_iff.mp hsome
  cases hhandled with
  | absent hfound => simp [hrow'] at hfound
  | inserted hfound => simp [hrow'] at hfound
  | waits hfound => simp [hrow'] at hfound
  | batch hfound => simp [hrow'] at hfound
  | deleted hfound hexists => simp [hfd.existing] at hexists
  | updated hfound hexists hchanged hstorable =>
    obtain rfl := Option.some.inj (hrow'.symm.trans hfound)
    refine ⟨{ attributes := row.attributes.updated x.1 }, ?_, .inr ⟨hchanged, rfl, rfl⟩⟩
    simp [hfd.path_eq]
  | unchanged hfound hexists hchanged hforce =>
    obtain rfl := Option.some.inj (hrow'.symm.trans hfound)
    exact ⟨row, hrow, .inl ⟨hchanged, rfl, rfl⟩⟩
  | confirmed hfound hexists hchanged hforce hscan =>
    obtain rfl := Option.some.inj (hrow'.symm.trans hfound)
    obtain ⟨row', hfound', hsame⟩ := hkept (rows_confirm s.db x.1.path)
    exact ⟨row', hfound', .inl ⟨hchanged, hsame, rfl⟩⟩
  | queued hfound hexists hchanged hforce hscan =>
    obtain rfl := Option.some.inj (hrow'.symm.trans hfound)
    exact ⟨row, hrow, .inl ⟨hchanged, rfl, rfl⟩⟩
  | confirmedAll hfound hexists hchanged hforce hscan =>
    obtain rfl := Option.some.inj (hrow'.symm.trans hfound)
    obtain ⟨row', hfound', hsame⟩ := hkept (rows_doUpdateQueue
      { s with updateQueue := s.updateQueue ++ [x.1.path] })
    exact ⟨row', hfound', .inl ⟨hchanged, hsame, rfl⟩⟩

/-- The lines of an alert about the object that are about its content. -/
theorem content_lines_iff (hfd : Reports host object path fd) :
    (∀ c ∈ changes unitTest a fd, c.content = false) ↔
      (fd.contentChecked = true → Holds host object a) := by
  constructor
  · intro h hchecked
    constructor
    · intro hobject
      have hfile : fd.type = .file := hfd.type.trans hobject
      by_contra hne
      rw [← hfd.sha256 hfile hchecked] at hne
      exact absurd (h (.sha256 a.read.sha256 fd.sha256)
        (by simp [changes, hfile, hchecked, Ne.symm hne])) (by simp [Change.content])
    · intro hobject
      have hlink : fd.type = .link := hfd.type.trans hobject
      by_contra hne
      rw [← hfd.target hlink hchecked] at hne
      exact absurd (h (.target a.read.target fd.target)
        (by simp [changes, hlink, hchecked, hne])) (by simp [Change.content])
  · intro h c hc
    have hsha256 : ¬ (fd.type = .file ∧ fd.contentChecked = true ∧ fd.sha256 ≠ a.read.sha256) := by
      rintro ⟨hfile, hchecked, hne⟩
      rw [hfd.sha256 hfile hchecked, (h hchecked).1 (hfd.type.symm.trans hfile)] at hne
      exact hne rfl
    have htarget : ¬ (fd.type = .link ∧ fd.contentChecked = true ∧ a.read.target ≠ fd.target) := by
      rintro ⟨hlink, hchecked, hne⟩
      rw [hfd.target hlink hchecked, (h hchecked).2 (hfd.type.symm.trans hlink)] at hne
      exact hne rfl
    simp only [changes, if_neg hsha256, if_neg htarget, List.mem_flatten, List.mem_cons,
      List.not_mem_nil, or_false] at hc
    obtain ⟨line, hline, hmem⟩ := hc
    rcases hline with rfl | rfl | rfl | rfl | rfl | rfl | rfl | rfl | rfl | rfl
    all_goals
      first
      | cases hmem
      | split at hmem
        · rw [List.mem_singleton.mp hmem]
          rfl
        · cases hmem

/-- A message leaves the content alone exactly if it looks at the content and finds that of the
row, or does not look at it and is harmless. -/
theorem undisturbed_iff (hfd : Reports host object path x.1) {row : Row}
    (hrow : s.db[path]? = some row) (h : fileDataStep unitTest blockSize s x = some s') :
    Undisturbed path x.1 s s' ↔ if x.1.contentChecked then Holds host object row.attributes
      else Harmless unitTest x.1 row.attributes := by
  obtain ⟨row', hrow', ⟨hchanged, hsame, halerts⟩ | ⟨hchanged, hupdated, halerts⟩⟩ :=
    snapshot_step hfd hrow h
  · have hrecords := changed_eq_false_iff.mp hchanged
    apply iff_of_true
    · refine ⟨?_, ?_⟩
      · intro fd' cs hmem
        rw [halerts, List.drop_length] at hmem
        cases hmem
      · intro _ r hr
        obtain rfl := Option.some.inj (hrow.symm.trans hr)
        exact ⟨row', hrow', by rw [hsame], by rw [hsame]⟩
    · split
      · rename_i hchecked
        refine ⟨fun hobject => ?_, fun hobject => ?_⟩
        · have hfile := hfd.type.trans hobject
          rw [hrecords.sha256 hfile hchecked, hfd.sha256 hfile hchecked]
        · have hlink := hfd.type.trans hobject
          rw [hrecords.target hlink hchecked, hfd.target hlink hchecked]
      · intro hcontra
        simp [hchanged] at hcontra
  · have hquiet : (∀ fd' cs, .changed fd' cs ∈ s'.alerts.drop s.alerts.length →
        ∀ c ∈ cs, c.content = false) ↔
          (x.1.contentChecked = true → Holds host object row.attributes) := by
      have hlines : (∀ c ∈ changes unitTest row.attributes x.1, c.content = false) ↔ _ :=
        content_lines_iff hfd
      rw [halerts, List.drop_left, ← hlines]
      simp
    rw [Undisturbed, hquiet]
    cases hchecked : x.1.contentChecked with
    | true => simp
    | false =>
      have hcolumns : row'.attributes.sha256 = columnText row.attributes.sha256 ∧
          row'.attributes.target = "" := by
        rw [hupdated, ← hfd.unchecked hchecked]
        simp [Attributes.updated, hchecked, Attributes.read, FileData.attributes]
      simp only [Bool.false_eq_true, false_imp_iff, true_and, true_imp_iff, if_false]
      constructor
      · intro hkept _
        obtain ⟨r, hr, hsha256, htarget⟩ := hkept row hrow
        obtain rfl := Option.some.inj (hrow'.symm.trans hr)
        exact ⟨htarget.symm.trans hcolumns.2, hcolumns.1.symm.trans hsha256⟩
      · intro hharmless r hr
        obtain rfl := Option.some.inj (hrow.symm.trans hr)
        obtain ⟨htarget, hsha256⟩ := hharmless hchanged
        exact ⟨row', hrow', hcolumns.1.trans hsha256, hcolumns.2.trans htarget.symm⟩

/-- Such a message leaves a row with the content of the object, or one without it, as it is. -/
theorem holds_iff_of_undisturbed (hfd : Reports host object path x.1) {row row' : Row}
    (hrow : s.db[path]? = some row) (hrow' : s'.db[path]? = some row')
    (h : fileDataStep unitTest blockSize s x = some s')
    (hundisturbed : Undisturbed path x.1 s s') :
    Holds host object row'.attributes ↔ Holds host object row.attributes := by
  have hcond := (undisturbed_iff hfd hrow h).mp hundisturbed
  obtain ⟨r, hr, ⟨-, hsame, -⟩ | ⟨-, hupdated, -⟩⟩ := snapshot_step hfd hrow h
  · obtain rfl := Option.some.inj (hrow'.symm.trans hr)
    rw [hsame]
  · obtain rfl := Option.some.inj (hrow'.symm.trans hr)
    cases hchecked : x.1.contentChecked with
    | true =>
      rw [hchecked, if_pos rfl] at hcond
      apply iff_of_true _ hcond
      rw [hupdated]
      refine ⟨fun hobject => ?_, fun hobject => ?_⟩
      · have hsha256 := hfd.sha256 (hfd.type.trans hobject) hchecked
        simp only [Attributes.read, Attributes.updated, hchecked, if_true, hsha256]
        exact columnText_eq_self (host.sha256 object.content).zero_free
      · have htarget := hfd.target (hfd.type.trans hobject) hchecked
        simp only [Attributes.read, Attributes.updated, FileData.attributes, htarget]
        exact columnText_eq_self
          (targetText_zero_free fun hmem => object.target.property (List.mem_of_mem_take hmem))
    | false =>
      obtain ⟨r, hr, hsha256, htarget⟩ := hundisturbed.2 hchecked row hrow
      obtain rfl := Option.some.inj (hrow'.symm.trans hr)
      simp only [Holds, Attributes.read, hsha256, htarget]

end Step

section Runs

variable {object : KeptObject} {ms : List (FileData × Flags)} {row : Row}

/-- Among messages that leave the content alone, the row has the content of the object at the end
exactly if it had it at the beginning. -/
theorem holds_iff_of_run (hms : ∀ x ∈ ms, Snapshot host object path x.1)
    (hrow : s.db[path]? = some row)
    (hundisturbed : StepsMeet (fileDataStep unitTest blockSize) (fun t x => ∀ t',
      fileDataStep unitTest blockSize t x = some t' → Undisturbed path x.1 t t') s ms)
    (h : runSteps (fileDataStep unitTest blockSize) s ms = some s') :
    ∃ row', s'.db[path]? = some row' ∧
      (Holds host object row'.attributes ↔ Holds host object row.attributes) := by
  induction ms using List.reverseRecOn generalizing s' with
  | nil =>
    obtain rfl := Option.some.inj h
    exact ⟨row, hrow, Iff.rfl⟩
  | append_singleton ms x ih =>
    obtain ⟨t, ht, hstep⟩ := runSteps_concat.mp h
    obtain ⟨hbefore, hlast⟩ := stepsMeet_concat.mp hundisturbed
    obtain ⟨r, hr, hiff⟩ := ih (fun y hy => hms y (List.mem_append_left _ hy)) hbefore ht
    have hfd := (hms x (List.mem_append_right _ (List.mem_singleton_self x))).reports
    obtain ⟨r', hr', -⟩ := snapshot_step hfd hr hstep
    exact ⟨r', hr', (holds_iff_of_undisturbed hfd hr hr' hstep (hlast t ht s' hstep)).trans hiff⟩

/-- While an object keeps its type and its content, its messages leave the recorded content alone
exactly if the row has that content, should any of them look at it, and every message without a
look at it finds no difference or a row without a target. -/
theorem recorded_content_kept_iff (s : State) (row : Row)
    (hms : ∀ x ∈ ms, Snapshot host object path x.1)
    (hrow : s.db[path]? = some row)
    (h : runSteps (fileDataStep unitTest blockSize) s ms = some s') :
    StepsMeet (fileDataStep unitTest blockSize) (fun t x => ∀ t',
        fileDataStep unitTest blockSize t x = some t' → Undisturbed path x.1 t t') s ms ↔
      StepsMeet (fileDataStep unitTest blockSize) (fun t x =>
        if x.1.contentChecked then Holds host object row.attributes
        else ∀ r, t.db[path]? = some r → Harmless unitTest x.1 r.attributes) s ms := by
  induction ms using List.reverseRecOn generalizing s' with
  | nil => exact iff_of_true (stepsMeet_nil s) (stepsMeet_nil s)
  | append_singleton ms x ih =>
    obtain ⟨t, ht, hstep⟩ := runSteps_concat.mp h
    have hms' : ∀ y ∈ ms, Snapshot host object path y.1 :=
      fun y hy => hms y (List.mem_append_left _ hy)
    have hfd := (hms x (List.mem_append_right _ (List.mem_singleton_self x))).reports
    rw [stepsMeet_concat, stepsMeet_concat, ← ih hms' ht]
    apply and_congr_right
    intro hbefore
    obtain ⟨r, hr, hiff⟩ := holds_iff_of_run hms' hrow hbefore ht
    have hlast := undisturbed_iff hfd hr hstep
    constructor
    · intro hundisturbed u hu
      obtain rfl := Option.some.inj (ht.symm.trans hu)
      have hcond := hlast.mp (hundisturbed t ht s' hstep)
      split
      · rename_i hchecked
        rw [if_pos hchecked] at hcond
        exact hiff.mp hcond
      · rename_i hchecked
        rw [if_neg hchecked] at hcond
        intro r' hr'
        obtain rfl := Option.some.inj (hr.symm.trans hr')
        exact hcond
    · intro hcond u hu u' hu'
      obtain rfl := Option.some.inj (ht.symm.trans hu)
      obtain rfl := Option.some.inj (hstep.symm.trans hu')
      have hc := hcond t ht
      rw [hlast]
      split
      · rename_i hchecked
        rw [if_pos hchecked] at hc
        exact hiff.mpr hc
      · rename_i hchecked
        rw [if_neg hchecked] at hc
        exact hc r hr

/-- A link that stays as it is, but for its owner. -/
def keptLink : KeptObject where
  type := .link
  content := []
  target := ⟨[97], by decide⟩

def linkAnswers (uid : UInt32) : Answers :=
  { answersOf (ownedBy uid 41471 1) with readlink := some keptLink.target }

def recordedLink : FileData :=
  { recordOf (ownedBy 0 41471 1) "root" with contentChecked := true, target := targetText [97] }

/-- Its owner has changed, and no one has looked at the target. -/
def chownedLink : FileData := recordOf (ownedBy 5000 41471 1) "!unknown"

def rescannedLink : FileData :=
  { chownedLink with contentChecked := true, target := targetText [97] }

theorem snapshot_chownedLink : Snapshot rootHost keptLink "/etc/motd" chownedLink :=
  ⟨linkAnswers 5000, ownedBy 5000 41471 1, 0, ∅, false, false, ∅, rfl, rfl, by decide,
    (by intro _ h; cases h), fun _ h => (Option.some.inj h).symm⟩

theorem snapshot_rescannedLink : Snapshot rootHost keptLink "/etc/motd" rescannedLink :=
  ⟨linkAnswers 5000, ownedBy 5000 41471 1, 0, ∅, true, false, ∅, rfl, rfl, by decide,
    (by intro _ h; cases h), fun _ h => (Option.some.inj h).symm⟩

theorem recorded_content_kept_iff_chownedLink :
    ∃ s', runSteps (fileDataStep false 1000) { db := tableOf recordedLink } [(chownedLink, {})] =
        some s' ∧
      (StepsMeet (fileDataStep false 1000) (fun t x => ∀ t',
          fileDataStep false 1000 t x = some t' → Undisturbed "/etc/motd" x.1 t t')
            { db := tableOf recordedLink } [(chownedLink, {})] ↔
        StepsMeet (fileDataStep false 1000) (fun t x =>
          if x.1.contentChecked then Holds rootHost keptLink recordedLink.attributes
          else ∀ r, t.db["/etc/motd"]? = some r → Harmless false x.1 r.attributes)
            { db := tableOf recordedLink } [(chownedLink, {})]) := by
  have hrow : (tableOf recordedLink)["/etc/motd"]? =
      some { attributes := recordedLink.attributes } := Std.ExtTreeMap.getElem?_insert_self
  have hreturns : (runSteps (fileDataStep false 1000) { db := tableOf recordedLink }
      [(chownedLink, {})]).isSome = true := by decide +kernel
  obtain ⟨s', hs'⟩ := Option.isSome_iff_exists.mp hreturns
  refine ⟨s', hs', recorded_content_kept_iff { db := tableOf recordedLink }
    { attributes := recordedLink.attributes } ?_ hrow hs'⟩
  intro x hx
  rw [List.mem_singleton.mp hx]
  exact snapshot_chownedLink

/-- The full update of a link with another owner drops its target, and the next scan reports one
that has not changed. -/
theorem recorded_content_disturbed :
    (∀ x ∈ [(chownedLink, ({} : Flags)), (rescannedLink, {})],
        Snapshot rootHost keptLink "/etc/motd" x.1) ∧
      Holds rootHost keptLink recordedLink.attributes ∧ chownedLink.contentChecked = false ∧
      (runSteps (fileDataStep false 1000) { db := tableOf recordedLink }
        [(chownedLink, {})]).map (fun s => s.db["/etc/motd"]?.map (·.attributes.target)) =
          some (some "") ∧
      (runSteps (fileDataStep false 1000) { db := tableOf recordedLink }
        [(chownedLink, {}), (rescannedLink, {})]).map State.alerts =
          some [.changed chownedLink [.user "root" "!unknown"],
            .changed rescannedLink [.target "" "a"]] := by
  refine ⟨?_, ⟨(by intro h; cases h), fun _ => by decide +kernel⟩, rfl, by decide +kernel,
    by decide +kernel⟩
  intro x hx
  rcases List.mem_pair.mp hx with rfl | rfl
  · exact snapshot_chownedLink
  · exact snapshot_rescannedLink

end Runs

end Ctguard.AlertTask
