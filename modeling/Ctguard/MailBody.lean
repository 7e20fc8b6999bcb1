import Ctguard.DotLines
import Ctguard.MailTask

/-!
# The text of an alert mail

`send_mail_queue` puts the texts of the collected alerts into one mail, which
`send_mail_message` sends as it is, between the header and the line that ends it. Every
text of an alert stands behind a text of the program that ends within a line, so the mail
arrives exactly if no text in it has a line, after its first, that begins with a dot.
-/

namespace Ctguard

/-- The configured addresses of mails. -/
structure MailAddresses where
  mailFromaddr : String := "ctguard@localhost"
  mailToaddr : String := "root@localhost"
  mailReplyaddr : String := "root@localhost"

namespace MailBody

/-- A string right-adjusted by `std::setw`. -/
def setw (width : ℕ) (s : String) : String :=
  String.ofList (List.replicate (width - s.length) ' ') ++ s

/-- What is behind a noun, to make it a plural if need be. -/
def plural (one : Prop) [Decidable one] : String := if one then " " else "s"

structure SummaryItem where
  count : UInt32 := 0
  id : RuleId := 0
  priority : Priority := 0

def countAlert (m : Std.ExtTreeMap String SummaryItem) (ev : Event) :
    Std.ExtTreeMap String SummaryItem :=
  m.insert ev.description
    { count := (m.getD ev.description {}).count + 1, id := ev.ruleId, priority := ev.priority }

/-- The alerts by their descriptions; the last one with a description gives id and priority. -/
def summaryMap (q : List Event) : Std.ExtTreeMap String SummaryItem := q.foldl countAlert ∅

def interventionCount (q : List Event) : UInt64 :=
  q.foldl (fun n ev => n + .ofNat ev.interventions.length) 0

def countIntervention (m : Std.ExtTreeMap String UInt32) (it : InterventionRule) :
    Std.ExtTreeMap String UInt32 :=
  m.insert it.name (m.getD it.name 0 + 1)

def interventionsDetails (q : List Event) : Std.ExtTreeMap String UInt32 :=
  (q.flatMap Event.interventions).foldl countIntervention ∅

def maxAlert (q : List Event) : Priority :=
  q.foldl (fun n ev => if n < ev.priority then ev.priority else n) 0

def banner (q : List Event) : String :=
  "                        ######################\n" ++
  "                        # ctguard alert mail #\n" ++
  "                        #   " ++ setw 4 (toString q.length) ++ " alert" ++
    plural (q.length = 1) ++ "      #\n" ++
  "                        ######################\n\n"

def interventionLine (ev : Event) (it : InterventionRule) : String :=
  "           " ++ setw 20 it.name ++ " ( " ++ it.field ++ " :: " ++
    ev.fields[it.field]?.getD "!EMPTY!" ++ " )\n"

def interventionLines (ev : Event) : String :=
  if ev.interventions = [] then ""
  else "  - Intervention:\n" ++ String.join (ev.interventions.map (interventionLine ev))

/-- A trait or a field. -/
def entryLine (entry : String × String) : String :=
  "           " ++ setw 20 entry.1 ++ " :: " ++ entry.2 ++ "\n"

def fieldLines (ev : Event) : String :=
  if ev.fields.isEmpty then ""
  else "  - Extracted fields:\n" ++ String.join (ev.fields.toList.map entryLine)

/-- What `content` gets for one alert. -/
def alertText (ev : Event) : String :=
  "#=========================== ALERT START ===========================#\n\n" ++
  "  - Info:             " ++ ev.description ++ " (id: " ++ toString ev.ruleId.toNat ++ ")\n\n" ++
  "  - Priority:        " ++ setw 2 (toString ev.priority.toNat) ++ "\n\n" ++
  interventionLines ev ++
  "\n  - Log start\n    > " ++ ev.logstr ++ "\n  - Log end\n\n" ++
  "  - Traits:\n" ++
  String.join (ev.traits.toList.map entryLine) ++
  fieldLines ev ++
  "\n#============================ ALERT END ============================#\n\n"

def summaryLine (item : String × SummaryItem) : String :=
  "  " ++ setw 4 (toString item.2.count.toNat) ++ " alert" ++ plural (item.2.count = 1) ++ ": " ++
    item.1 ++ " (id: " ++ toString item.2.id.toNat ++ ") - Priority " ++
    toString item.2.priority.toNat ++ "\n"

/-- The interventions with their numbers, with a comma before all but the first. -/
def detailList : Bool → List (String × UInt32) → String
  | _, [] => ""
  | first, item :: items =>
    (if first then "" else ",") ++ " " ++ toString item.2.toNat ++ " " ++ item.1 ++
      detailList false items

def interventionSummary (q : List Event) : String :=
  if 0 < interventionCount q then
    "  " ++ setw 4 (toString (interventionCount q).toNat) ++ "intervention" ++
      plural (interventionCount q = 1) ++ ":" ++
      detailList true (interventionsDetails q).toList ++ "\n"
  else ""

/-- The text that `send_mail_queue` builds. -/
def mail (q : List Event) : String :=
  banner q ++
  "#============================= SUMMARY =============================#\n\n" ++
  String.join ((summaryMap q).toList.map summaryLine) ++
  interventionSummary q ++
  "\n#============================= SUMMARY =============================#\n\n" ++
  String.join (q.map alertText) ++
  banner q

def subject (q : List Event) : String :=
  "ctguard :: " ++ toString q.length ++ " alert(s) :: max priority " ++
    toString (maxAlert q).toNat

def envelop (addresses : MailAddresses) (subject : String) : String :=
  "From: " ++ addresses.mailFromaddr ++ "\r\nTo: " ++ addresses.mailToaddr ++
    "\r\nSubject: " ++ subject ++ "\r\nX-Mailer: ctguard-notifier\r\nReply-To: " ++
    addresses.mailReplyaddr ++ "\r\n\r\n"

def terminator : String := "\r\n.\r\n"

/-- What `send_mail_message` sends, behind the answer to the command `DATA`. -/
def sendMailMessage (addresses : MailAddresses) (subject msg : String) : String :=
  envelop addresses subject ++ msg ++ terminator

def sendMailQueue (addresses : MailAddresses) (q : List Event) : String :=
  sendMailMessage addresses (subject q) (mail q)

/-- What is sent before the terminator: the header, and the text that was built. -/
def message (addresses : MailAddresses) (q : List Event) : String :=
  envelop addresses (subject q) ++ mail q

/-- The mail ends only where its terminator stands, and is received as it was built. -/
structure Intact (addresses : MailAddresses) (q : List Event) : Prop where
  ends : ∀ pre post, (sendMailQueue addresses q).toList =
    pre ++ terminator.toList ++ post → post = []
  received : DotLines.receive (sendMailQueue addresses q).toList =
    some (message addresses q).toList

/-- No line of a text but the first begins with a dot. -/
def DotFree (s : String) : Prop := ¬ DotLines.dotLine <:+: s.toList

instance (s : String) : Decidable (DotFree s) := inferInstanceAs (Decidable (¬ _))

def addressTexts (addresses : MailAddresses) : List String :=
  [addresses.mailFromaddr, addresses.mailToaddr, addresses.mailReplyaddr]

/-- The texts of an alert that are printed in a mail. -/
def alertTexts (ev : Event) : List String :=
  [ev.description, ev.logstr] ++ ev.interventions.flatMap (fun it => [it.name, it.field]) ++
    (ev.traits.toList ++ ev.fields.toList).flatMap fun entry => [entry.1, entry.2]

section Texts

open DotLines

theorem dotFree_number (n : ℕ) : DotFree (toString n) := by
  intro h
  have hmem : '\r' ∈ (toString n).toList := h.subset (by simp [dotLine])
  rw [Nat.toString_eq_repr, Nat.toList_repr] at hmem
  have hdigit := Nat.isDigit_of_mem_toDigits (by decide) (by decide) hmem
  simp [Char.isDigit] at hdigit

/-- A part of the mail in which, wherever it stands, no line begins with a dot exactly if the
condition holds. -/
def Part (s : String) (P : Prop) : Prop := Guarded s.toList P

variable {s lit : String} {P Q : Prop}

theorem Part.literal (h : Passes lit.toList) : Part lit True := h.guarded

theorem Part.congr (h : Part s P) (hPQ : P ↔ Q) : Part s Q := Guarded.congr h hPQ

theorem Part.append {t : String} (hs : Part s P) (ht : Part t Q) : Part (s ++ t) (P ∧ Q) := by
  rw [Part, String.toList_append]
  exact Guarded.append hs ht

theorem Part.then (hs : Part s P) (h : Passes lit.toList) : Part (s ++ lit) P :=
  (hs.append (.literal h)).congr (by simp)

theorem Part.text (h : Resets lit.toList) (t : String) : Part (lit ++ t) (DotFree t) := by
  rw [Part, String.toList_append]
  exact h.guarded t.toList

theorem Part.thenText (hs : Part s P) (h : Resets lit.toList) (t : String) :
    Part (s ++ lit ++ t) (P ∧ DotFree t) := by
  rw [String.append_assoc]
  exact hs.append (.text h t)

theorem Part.thenNumber (hs : Part s P) (h : Resets lit.toList) (n : ℕ) :
    Part (s ++ lit ++ toString n) P :=
  (hs.thenText h (toString n)).congr (and_iff_left (dotFree_number n))

theorem Part.padded (h : Resets lit.toList) (width : ℕ) (t : String) :
    Part (lit ++ setw width t) (DotFree t) := by
  rw [Part, String.toList_append, setw, String.toList_append, String.toList_ofList]
  exact h.padded _ t.toList

theorem Part.thenPadded (hs : Part s P) (h : Resets lit.toList) (width n : ℕ) :
    Part (s ++ lit ++ setw width (toString n)) P := by
  rw [String.append_assoc]
  exact (hs.append (.padded h width (toString n))).congr (and_iff_left (dotFree_number n))

theorem Part.join {α : Type} {f : α → String} {C : α → Prop} {as : List α}
    (h : ∀ a ∈ as, Part (f a) (C a)) : Part (String.join (as.map f)) (∀ a ∈ as, C a) := by
  rw [Part, String.toList_join, List.flatMap_map]
  exact Guarded.flatMap h

theorem passes_plural (one : Prop) [Decidable one] : Passes (plural one).toList := by
  rw [plural]
  split <;> decide

theorem part_banner (q : List Event) : Part (banner q) True :=
  Part.literal (by decide) |>.then (by decide) |>.thenPadded (by decide) 4 q.length
    |>.then (by decide) |>.then (passes_plural _) |>.then (by decide) |>.then (by decide)

theorem part_interventionLine (ev : Event) (it : InterventionRule) :
    Part (interventionLine ev it) (DotFree it.name ∧ DotFree it.field ∧
      DotFree (ev.fields[it.field]?.getD "!EMPTY!")) :=
  Part.padded (by decide) 20 it.name |>.thenText (by decide) it.field
    |>.thenText (by decide) (ev.fields[it.field]?.getD "!EMPTY!") |>.then (by decide)
    |>.congr and_assoc

theorem part_interventionLines (ev : Event) :
    Part (interventionLines ev) (∀ it ∈ ev.interventions, DotFree it.name ∧ DotFree it.field ∧
      DotFree (ev.fields[it.field]?.getD "!EMPTY!")) := by
  rw [interventionLines]
  split_ifs with h
  · exact (Part.literal (by decide)).congr (by simp [h])
  · have hlines := Part.join fun it (_ : it ∈ ev.interventions) => part_interventionLine ev it
    exact ((Part.literal (by decide)).append hlines).congr (and_iff_right trivial)

theorem part_entryLine (entry : String × String) :
    Part (entryLine entry) (DotFree entry.1 ∧ DotFree entry.2) :=
  Part.padded (by decide) 20 entry.1 |>.thenText (by decide) entry.2 |>.then (by decide)

theorem part_entryLines (entries : List (String × String)) :
    Part (String.join (entries.map entryLine))
      (∀ entry ∈ entries, DotFree entry.1 ∧ DotFree entry.2) :=
  Part.join fun entry _ => part_entryLine entry

theorem part_fieldLines (ev : Event) :
    Part (fieldLines ev) (∀ entry ∈ ev.fields.toList, DotFree entry.1 ∧ DotFree entry.2) := by
  rw [fieldLines]
  split_ifs with h
  · have hnil : ev.fields.toList = [] := by
      rw [Std.ExtTreeMap.isEmpty_iff.mp h]
      rfl
    exact (Part.literal (by decide)).congr (by simp [hnil])
  · exact ((Part.literal (by decide)).append (part_entryLines _)).congr (and_iff_right trivial)

theorem mem_alertTexts (ev : Event) :
    (∀ s ∈ alertTexts ev, DotFree s) ↔
      (DotFree ev.description ∧ DotFree ev.logstr) ∧
        (∀ it ∈ ev.interventions, DotFree it.name ∧ DotFree it.field) ∧
        (∀ entry ∈ ev.traits.toList, DotFree entry.1 ∧ DotFree entry.2) ∧
        ∀ entry ∈ ev.fields.toList, DotFree entry.1 ∧ DotFree entry.2 := by
  rw [alertTexts, List.forall_mem_append, List.forall_mem_append, List.forall_mem_flatMap,
    List.forall_mem_flatMap, List.forall_mem_append]
  simp only [List.forall_mem_cons, List.not_mem_nil, false_implies, implies_true, and_true,
    and_assoc]

/-- The value that is printed behind an intervention is one of the fields. -/
theorem dotFree_argument {ev : Event} (h : ∀ entry ∈ ev.fields.toList, DotFree entry.1 ∧
    DotFree entry.2) (name : String) : DotFree (ev.fields[name]?.getD "!EMPTY!") := by
  cases hvalue : ev.fields[name]? with
  | none =>
    rw [Option.getD_none]
    decide
  | some value =>
    have hmem := Std.ExtTreeMap.mem_toList_iff_getElem?_eq_some.mpr hvalue
    exact (h _ hmem).2

theorem part_alertText (ev : Event) : Part (alertText ev) (∀ s ∈ alertTexts ev, DotFree s) := by
  rw [mem_alertTexts]
  have hfields : Part (alertText ev) (((((True ∧ DotFree ev.description) ∧
      ∀ it ∈ ev.interventions, DotFree it.name ∧ DotFree it.field ∧
        DotFree (ev.fields[it.field]?.getD "!EMPTY!")) ∧ DotFree ev.logstr) ∧
      ∀ entry ∈ ev.traits.toList, DotFree entry.1 ∧ DotFree entry.2) ∧
      ∀ entry ∈ ev.fields.toList, DotFree entry.1 ∧ DotFree entry.2) :=
    Part.literal (by decide) |>.thenText (by decide) ev.description
      |>.thenNumber (by decide) ev.ruleId.toNat |>.then (by decide)
      |>.thenPadded (by decide) 2 ev.priority.toNat |>.then (by decide)
      |>.append (part_interventionLines ev) |>.thenText (by decide) ev.logstr
      |>.then (by decide) |>.then (by decide) |>.append (part_entryLines ev.traits.toList)
      |>.append (part_fieldLines ev) |>.then (by decide)
  refine hfields.congr ⟨?_, ?_⟩
  · rintro ⟨⟨⟨⟨⟨-, hdescription⟩, hlines⟩, hlog⟩, htraits⟩, hentries⟩
    exact ⟨⟨hdescription, hlog⟩, fun it hit => ⟨(hlines it hit).1, (hlines it hit).2.1⟩, htraits,
      hentries⟩
  · rintro ⟨⟨hdescription, hlog⟩, hlines, htraits, hentries⟩
    refine ⟨⟨⟨⟨⟨trivial, hdescription⟩, fun it hit => ?_⟩, hlog⟩, htraits⟩, hentries⟩
    exact ⟨(hlines it hit).1, (hlines it hit).2, dotFree_argument hentries it.field⟩

theorem part_summaryLine (item : String × SummaryItem) :
    Part (summaryLine item) (DotFree item.1) :=
  Part.padded (by decide) 4 (toString item.2.count.toNat)
    |>.congr (iff_true_intro (dotFree_number _)) |>.then (by decide) |>.then (passes_plural _)
    |>.thenText (by decide) item.1 |>.thenNumber (by decide) item.2.id.toNat
    |>.thenNumber (by decide) item.2.priority.toNat |>.then (by decide)
    |>.congr (and_iff_right trivial)

theorem part_detailList (first : Bool) (items : List (String × UInt32)) :
    Part (detailList first items) (∀ item ∈ items, DotFree item.1) := by
  induction items generalizing first with
  | nil =>
    have hempty : Part "" True := .literal (by decide)
    exact hempty.congr (by simp)
  | cons item items ih =>
    have hcomma : Part (if first then "" else ",") True := by
      split
      · exact .literal (by decide)
      · exact .literal (by decide)
    exact (((hcomma.thenNumber (by decide) item.2.toNat).thenText (by decide) item.1).append
      (ih false)).congr (by rw [true_and, List.forall_mem_cons])

theorem part_interventionSummary (q : List Event) :
    Part (interventionSummary q)
      (0 < interventionCount q → ∀ item ∈ (interventionsDetails q).toList, DotFree item.1) := by
  rw [interventionSummary]
  split_ifs with h
  · exact Part.padded (by decide) 4 (toString (interventionCount q).toNat)
      |>.congr (iff_true_intro (dotFree_number _)) |>.then (by decide) |>.then (passes_plural _)
      |>.then (by decide) |>.append (part_detailList true _) |>.then (by decide)
      |>.congr (by simp [h])
  · exact (Part.literal (by decide)).congr (by simp [h])

end Texts

section Keys

/-- Each key of a map that is filled entry by entry comes from an entry. -/
theorem mem_of_mem_foldl {α β : Type} (key : α → String)
    {insert : Std.ExtTreeMap String β → α → Std.ExtTreeMap String β}
    (hinsert : ∀ m a, ∃ v, insert m a = m.insert (key a) v) {as : List α}
    {m : Std.ExtTreeMap String β} {k : String} (h : k ∈ as.foldl insert m) :
    k ∈ m ∨ ∃ a ∈ as, key a = k := by
  induction as generalizing m with
  | nil => exact .inl h
  | cons a as ih =>
    rcases ih h with hm | ⟨b, hb, heq⟩
    · obtain ⟨v, hv⟩ := hinsert m a
      rw [hv, Std.ExtTreeMap.mem_insert] at hm
      rcases hm with heq | hm
      · exact .inr ⟨a, List.mem_cons_self, by simpa using heq⟩
      · exact .inl hm
    · exact .inr ⟨b, List.mem_cons_of_mem _ hb, heq⟩

theorem description_of_summaryMap {q : List Event} {item : String × SummaryItem}
    (h : item ∈ (summaryMap q).toList) : ∃ ev ∈ q, ev.description = item.1 := by
  have hmem : item.1 ∈ summaryMap q := by
    rw [Std.ExtTreeMap.mem_iff_isSome_getElem?,
      Std.ExtTreeMap.mem_toList_iff_getElem?_eq_some.mp h]
    rfl
  rcases mem_of_mem_foldl Event.description (fun m ev => ⟨_, rfl⟩) hmem with hempty | hq
  · exact absurd hempty Std.ExtTreeMap.not_mem_empty
  · exact hq

theorem name_of_interventionsDetails {q : List Event} {item : String × UInt32}
    (h : item ∈ (interventionsDetails q).toList) :
    ∃ ev ∈ q, ∃ it ∈ ev.interventions, it.name = item.1 := by
  have hmem : item.1 ∈ interventionsDetails q := by
    rw [Std.ExtTreeMap.mem_iff_isSome_getElem?,
      Std.ExtTreeMap.mem_toList_iff_getElem?_eq_some.mp h]
    rfl
  rcases mem_of_mem_foldl InterventionRule.name (fun m it => ⟨_, rfl⟩) hmem with
    hempty | ⟨it, hit, heq⟩
  · exact absurd hempty Std.ExtTreeMap.not_mem_empty
  · obtain ⟨ev, hev, hmem⟩ := List.mem_flatMap.mp hit
    exact ⟨ev, hev, it, hmem, heq⟩

end Keys

section Mail

open DotLines

theorem part_mail (q : List Event) : Part (mail q) (∀ ev ∈ q, ∀ s ∈ alertTexts ev, DotFree s) := by
  have hparts : Part (mail q) ((((True ∧ ∀ item ∈ (summaryMap q).toList, DotFree item.1) ∧
      (0 < interventionCount q → ∀ item ∈ (interventionsDetails q).toList, DotFree item.1)) ∧
      ∀ ev ∈ q, ∀ s ∈ alertTexts ev, DotFree s) ∧ True) :=
    (part_banner q).then (by decide) |>.append (.join fun item _ => part_summaryLine item)
      |>.append (part_interventionSummary q) |>.then (by decide)
      |>.append (.join fun ev _ => part_alertText ev) |>.append (part_banner q)
  refine hparts.congr ⟨fun h => h.1.2, fun h => ⟨⟨⟨⟨trivial, ?_⟩, ?_⟩, h⟩, trivial⟩⟩
  · intro item hitem
    obtain ⟨ev, hev, heq⟩ := description_of_summaryMap hitem
    exact heq ▸ ((mem_alertTexts ev).mp (h ev hev)).1.1
  · intro _ item hitem
    obtain ⟨ev, hev, it, hit, heq⟩ := name_of_interventionsDetails hitem
    exact heq ▸ (((mem_alertTexts ev).mp (h ev hev)).2.1 it hit).1

theorem dotFree_subject (q : List Event) : DotFree (subject q) := by
  have hparts : Part (subject q) (DotFree (toString q.length)) :=
    (Part.text (by decide) (toString q.length)).thenNumber (by decide) (maxAlert q).toNat
  rw [DotFree, hparts.infix_iff, not_not]
  exact dotFree_number q.length

theorem part_envelop (addresses : MailAddresses) (q : List Event) :
    Part (envelop addresses (subject q)) (∀ s ∈ addressTexts addresses, DotFree s) := by
  have hparts : Part (envelop addresses (subject q)) (((DotFree addresses.mailFromaddr ∧
      DotFree addresses.mailToaddr) ∧ DotFree (subject q)) ∧ DotFree addresses.mailReplyaddr) :=
    (Part.text (by decide) addresses.mailFromaddr).thenText (by decide) addresses.mailToaddr
      |>.thenText (by decide) (subject q) |>.thenText (by decide) addresses.mailReplyaddr
      |>.then (by decide)
  refine hparts.congr ?_
  simp [addressTexts, dotFree_subject, and_assoc]

theorem part_message (addresses : MailAddresses) (q : List Event) :
    Part (message addresses q) ((∀ s ∈ addressTexts addresses, DotFree s) ∧
      ∀ ev ∈ q, ∀ s ∈ alertTexts ev, DotFree s) :=
  (part_envelop addresses q).append (part_mail q)

theorem toList_terminator : terminator.toList = endMark := rfl

theorem toList_sendMailQueue (addresses : MailAddresses) (q : List Event) :
    (sendMailQueue addresses q).toList = (message addresses q).toList ++ endMark := by
  rw [sendMailQueue, sendMailMessage, String.toList_append, toList_terminator]
  rfl

theorem intact_iff_arrives (addresses : MailAddresses) (q : List Event) :
    Intact addresses q ↔ Arrives (message addresses q).toList := by
  constructor
  · intro h
    constructor
    · intro pre post heq
      rw [← toList_sendMailQueue, ← toList_terminator] at heq
      exact h.ends pre post heq
    · rw [← toList_sendMailQueue]
      exact h.received
  · intro h
    constructor
    · intro pre post heq
      rw [toList_sendMailQueue, toList_terminator] at heq
      exact h.ends pre post heq
    · rw [toList_sendMailQueue]
      exact h.received

/-- A mail is intact exactly if no line of an address or of a text of an alert, but the first
line, begins with a dot. -/
theorem mail_intact_iff (addresses : MailAddresses) (q : List Event) :
    Intact addresses q ↔ (∀ s ∈ addressTexts addresses, DotFree s) ∧
      ∀ ev ∈ q, ∀ s ∈ alertTexts ev, DotFree s := by
  rw [intact_iff_arrives]
  exact (part_message addresses q).arrives_iff

/-- The alert of a rule that counts, after a log line that ends with a CR and one that is a dot
and a CR. -/
def dotAlert : Event where
  description := "Repeated failures"
  priority := 5
  ruleId := 7
  logstr := ".\r"
  traits := (∅ : StringMap).insert "trigger_logs"
    (triggerLogs [(1, { logstr := "a\r" }), (2, { logstr := ".\r" })])

/-- Its mail does not arrive. -/
theorem dotAlert_not_intact : ¬ Intact {} [dotAlert] := by
  rw [intact_iff_arrives, (part_message {} [dotAlert]).arrives_iff]
  rintro ⟨-, h⟩
  have htext : triggerLogs [(1, { logstr := "a\r" }), (2, { logstr := ".\r" })] = "a\r\n.\r\n" := by
    decide
  have htrait : ("trigger_logs", "a\r\n.\r\n") ∈ dotAlert.traits.toList := by
    rw [Std.ExtTreeMap.mem_toList_iff_getElem?_eq_some, dotAlert, ← htext]
    exact Std.ExtTreeMap.getElem?_insert_self
  have htexts := (mem_alertTexts dotAlert).mp (h dotAlert (List.mem_singleton_self _))
  exact absurd (htexts.2.2.1 _ htrait).2 (by decide)

end Mail

end MailBody

end Ctguard
