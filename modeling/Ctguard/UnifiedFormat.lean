import Ctguard.UnifiedHunks
import Ctguard.FileDataFactory
import Ctguard.Text

/-!
# The text of a difference

`printUnifiedFormat` prints the hunks line by line, each with a mark in front. A reader finds the
hunks by their headers. Applied to the one content they give the other, in both directions.
-/

namespace Ctguard.Dtl

open AlertTask

/-- A hunk as its text tells it. -/
structure PatchHunk (α : Type) where
  a : ℕ
  b : ℕ
  c : ℕ
  d : ℕ
  lines : List (Edit α)
  deriving DecidableEq

section Patches

variable {α : Type}

/-- The hunk that takes the change back. -/
def PatchHunk.reverse (h : PatchHunk α) : PatchHunk α where
  a := h.c
  b := h.d
  c := h.a
  d := h.b
  lines := h.lines.map Edit.flip

/-- The hunks are applied from the front. So many lines have been read and written before. What a
header says has to be so. -/
def patchFrom [DecidableEq α] : ℕ → ℕ → List α → List (PatchHunk α) → Option (List α)
  | _, _, old, [] => some old
  | i, j, old, h :: hs =>
    let skip := h.a - 1 - i
    let before := Edit.before h.lines
    let after := Edit.after h.lines
    if h.a = i + skip + 1 ∧ h.c = j + skip + 1 ∧ h.b = before.length ∧ h.d = after.length ∧
        skip ≤ old.length ∧ before <+: old.drop skip then
      (patchFrom (i + skip + before.length) (j + skip + after.length)
        (old.drop (skip + before.length)) hs).map (old.take skip ++ after ++ ·)
    else none

def patch [DecidableEq α] (old : List α) (hs : List (PatchHunk α)) : Option (List α) :=
  patchFrom 0 0 old hs

/-- The hunks tell how two contents differ, behind so many lines of each. -/
inductive Tells : ℕ → ℕ → List (PatchHunk α) → List α → List α → Prop
  | rest {i j : ℕ} (l : List α) : Tells i j [] l l
  | hunk {i j : ℕ} (gap : List α) {h : PatchHunk α} {hs : List (PatchHunk α)} {old new : List α}
      (ha : h.a = i + gap.length + 1) (hc : h.c = j + gap.length + 1)
      (hb : h.b = (Edit.before h.lines).length) (hd : h.d = (Edit.after h.lines).length)
      (hrest : Tells (i + gap.length + (Edit.before h.lines).length)
        (j + gap.length + (Edit.after h.lines).length) hs old new) :
      Tells i j (h :: hs) (gap ++ Edit.before h.lines ++ old) (gap ++ Edit.after h.lines ++ new)

variable {i j : ℕ} {hs : List (PatchHunk α)} {old new : List α}

theorem Tells.reverse (h : Tells i j hs old new) :
    Tells j i (hs.map PatchHunk.reverse) new old := by
  induction h with
  | rest l => exact .rest l
  | @hunk i j gap h hs old new ha hc hb hd _ ih =>
    have hbefore : Edit.before h.reverse.lines = Edit.after h.lines := Edit.before_flip _
    have hafter : Edit.after h.reverse.lines = Edit.before h.lines := Edit.after_flip _
    rw [← hbefore, ← hafter] at ih ⊢
    refine .hunk gap hc ha ?_ ?_ ih
    · rw [hbefore]
      exact hd
    · rw [hafter]
      exact hb

theorem Tells.patchFrom_eq [DecidableEq α] (h : Tells i j hs old new) :
    patchFrom i j old hs = some new := by
  induction h with
  | rest l => rfl
  | @hunk i j gap h hs old new ha hc hb hd _ ih =>
    have hskip : h.a - 1 - i = gap.length := by omega
    have hdrop : (gap ++ Edit.before h.lines ++ old).drop gap.length =
        Edit.before h.lines ++ old := by simp
    have hdrop' : (gap ++ Edit.before h.lines ++ old).drop
        (gap.length + (Edit.before h.lines).length) = old := by
      rw [← List.length_append, List.drop_left]
    rw [patchFrom]
    simp only [hskip]
    rw [if_pos ⟨ha, hc, hb, hd, by simp, by simp⟩, hdrop', ih]
    simp

/-- What the header and the lines of a hunk tell. -/
def UniHunk.told (h : UniHunk α) : PatchHunk α where
  a := h.a.toNat
  b := h.b.toNat
  c := h.c.toNat
  d := h.d.toNat
  lines := h.lines

theorem Laid.tells {ordered : Prop} {hs : List (UniHunk α)} {s : List (Edit α)}
    (h : Laid ordered i j hs s) (hordered : ordered) :
    Tells i j (hs.map UniHunk.told) (Edit.before s) (Edit.after s) := by
  induction h with
  | rest hgap =>
    rw [hgap.before_eq]
    exact .rest _
  | @hunk i j gap piece s h hs hgap hstands _ ih =>
    obtain ⟨ha, hc⟩ := hstands.position hordered
    have hb := hstands.b
    have hd := hstands.d
    rw [← hstands.before] at hb ih
    rw [← hstands.after] at hd ih
    rw [Edit.before_append, Edit.before_append, Edit.after_append, Edit.after_append,
      ← hstands.before, ← hstands.after, hgap.before_eq]
    rw [← hgap.length_after] at ha hc ih
    refine .hunk (h := h.told) _ ?_ ?_ ?_ ?_ ih
    all_goals simp only [UniHunk.told]
    all_goals omega

end Patches

section Print

/-- `SES_MARK_COMMON`, and the line. -/
def commonPrinter (e : SesElem Bytes) : List Char := ' ' :: e.1.map Char.ofUInt8

def changePrinter (e : SesElem Bytes) : List Char :=
  match e.2.type with
  | .add => '+' :: e.1.map Char.ofUInt8
  | .delete => '-' :: e.1.map Char.ofUInt8
  | .common => ' ' :: e.1.map Char.ofUInt8

def headerLine (a b c d : ℤ) : List Char :=
  ['@', '@', ' ', '-'] ++ (toString a).toList ++ [','] ++ (toString b).toList ++ [' ', '+'] ++
    (toString c).toList ++ [','] ++ (toString d).toList ++ [' ', '@', '@']

/-- The lines of a hunk. -/
def uniHunkPrinter (h : UniHunk Bytes) : List (List Char) :=
  headerLine h.a h.b h.c h.d ::
    (h.common0.map commonPrinter ++ h.change.map changePrinter ++ h.common1.map commonPrinter)

def printUnifiedFormat (hs : List (UniHunk Bytes)) : String :=
  String.ofList ((hs.flatMap uniHunkPrinter).flatMap fun l => l ++ ['\n'])

/-- `split` at the ends of lines. -/
def split (content : Bytes) : List Bytes := content.splitOn 10

/-- The difference that goes into the record of a file. -/
def unifiedDiff (old new : Bytes) : Option String :=
  (compose (split old) (split new)).map fun d =>
    printUnifiedFormat (composeUnifiedHunks d.swapped d.ses)

end Print

section Read

/-- A mark that has to be there. -/
def readMark (mark s : List Char) : Option (List Char) :=
  if mark <+: s then some (s.drop mark.length) else none

def readNumber (s : List Char) : Option (ℕ × List Char) :=
  let ds := s.takeWhile Char.isDigit
  if ds = [] then none else some (digitsValue ds, s.dropWhile Char.isDigit)

def readHeader (s : List Char) : Option (ℕ × ℕ × ℕ × ℕ) := do
  let s ← readMark ['@', '@', ' ', '-'] s
  let (a, s) ← readNumber s
  let s ← readMark [','] s
  let (b, s) ← readNumber s
  let s ← readMark [' ', '+'] s
  let (c, s) ← readNumber s
  let s ← readMark [','] s
  let (d, s) ← readNumber s
  if s = [' ', '@', '@'] then some (a, b, c, d) else none

def readBytes (s : List Char) : Bytes := s.map fun c => c.toNat.toUInt8

/-- The edits up to the first header, and the hunks behind it. -/
def readLines : List (List Char) → Option (List (Edit Bytes) × List (PatchHunk Bytes))
  | [] => some ([], [])
  | l :: ls => do
    let (s, hs) ← readLines ls
    match l with
    | ' ' :: cs => some (.common (readBytes cs) :: s, hs)
    | '-' :: cs => some (.delete (readBytes cs) :: s, hs)
    | '+' :: cs => some (.add (readBytes cs) :: s, hs)
    | l => do
      let (a, b, c, d) ← readHeader l
      some ([], ⟨a, b, c, d, s⟩ :: hs)

/-- The hunks of a text. Each line has an end. -/
def readUnifiedFormat (text : String) : Option (List (PatchHunk Bytes)) :=
  let ls := text.toList.splitOn '\n'
  match readLines ls.dropLast with
  | some ([], hs) => if ls.getLast? = some [] then some hs else none
  | _ => none

def join (lines : List Bytes) : Bytes := [10].intercalate lines

/-- The content that a text makes of another one. -/
def patchText (old : Bytes) (text : String) : Option Bytes := do
  let hs ← readUnifiedFormat text
  let lines ← patch (split old) hs
  return join lines

/-- The content from before. -/
def unpatchText (new : Bytes) (text : String) : Option Bytes := do
  let hs ← readUnifiedFormat text
  let lines ← patch (split new) (hs.map PatchHunk.reverse)
  return join lines

theorem readMark_append (mark s : List Char) : readMark mark (mark ++ s) = some s := by
  rw [readMark, if_pos (List.prefix_append _ _), List.drop_left]

theorem isDigit_of_mem_toString {n : ℕ} {c : Char} (h : c ∈ (toString n).toList) :
    c.isDigit = true := by
  rw [Nat.toString_eq_repr, Nat.repr, String.toList_ofList] at h
  exact Nat.isDigit_of_mem_toDigits (by decide) (by decide) h

theorem readNumber_append (n : ℕ) {s : List Char} (h : ∀ c ∈ s.head?, c.isDigit = false) :
    readNumber ((toString n).toList ++ s) = some (n, s) := by
  have hdigits : ∀ c ∈ (toString n).toList, c.isDigit = true :=
    fun c hc => isDigit_of_mem_toString hc
  have hrest : s.takeWhile Char.isDigit = [] ∧ s.dropWhile Char.isDigit = s := by
    cases s with
    | nil => exact ⟨rfl, rfl⟩
    | cons c s => simp [h c rfl]
  have hvalue : digitsValue (toString n).toList = n := by
    rw [Nat.toString_eq_repr, Nat.repr, String.toList_ofList, digitsValue,
      ← Nat.ofDigitChars_eq_foldl, Nat.ofDigitChars_ten_toDigits]
  have hsome : (toString n).toList ≠ [] := by
    rw [Nat.toString_eq_repr, Nat.repr, String.toList_ofList]
    exact Nat.toDigits_ne_nil
  rw [readNumber, List.takeWhile_append_of_pos hdigits, List.dropWhile_append_of_pos hdigits,
    hrest.1, hrest.2, List.append_nil, if_neg hsome, hvalue]

theorem readHeader_headerLine (a b c d : ℕ) : readHeader (headerLine a b c d) = some (a, b, c, d) := by
  have hcast : ∀ n : ℕ, toString (n : ℤ) = toString n := fun _ => rfl
  have hcomma : ∀ s c, c ∈ ([','] ++ s).head? → c.isDigit = false := by
    rintro s c ⟨⟩
    rfl
  have hplus : ∀ s c, c ∈ ([' ', '+'] ++ s).head? → c.isDigit = false := by
    rintro s c ⟨⟩
    rfl
  have hlast : ∀ c, c ∈ ([' ', '@', '@']).head? → c.isDigit = false := by
    rintro c ⟨⟩
    rfl
  simp only [headerLine, hcast, List.append_assoc, readHeader, readMark_append,
    Option.bind_eq_bind, Option.bind_some, readNumber_append _ (hcomma _),
    readNumber_append _ (hplus _), readNumber_append _ hlast, if_true]

theorem readBytes_map (line : Bytes) : readBytes (line.map Char.ofUInt8) = line := by
  rw [readBytes, List.map_map]
  refine (List.map_congr_left fun b _ => ?_).trans (List.map_id _)
  exact UInt8.ofNat_toNat

theorem readLines_changes (es : List (SesElem Bytes)) (ls : List (List Char)) :
    readLines (es.map changePrinter ++ ls) =
      (readLines ls).map fun r => (es.map edit ++ r.1, r.2) := by
  induction es with
  | nil => simp
  | cons e es ih =>
    rw [List.map_cons, List.cons_append, readLines, ih]
    cases readLines ls with
    | none => rfl
    | some r =>
      cases he : e.2.type
      all_goals simp [changePrinter, edit, he, readBytes_map]

theorem readLines_header (a b c d : ℕ) (ls : List (List Char)) :
    readLines (headerLine a b c d :: ls) =
      (readLines ls).map fun r => ([], ⟨a, b, c, d, r.1⟩ :: r.2) := by
  have hheader := readHeader_headerLine a b c d
  rw [readLines]
  cases readLines ls with
  | none => rfl
  | some r =>
    have hstart : headerLine a b c d = '@' :: (headerLine a b c d).tail := rfl
    rw [hstart] at hheader ⊢
    simp [hheader]

/-- The numbers of a header are no less than zero, and only common lines are around the change. -/
def UniHunk.Printable (h : UniHunk Bytes) : Prop :=
  (0 ≤ h.a ∧ 0 ≤ h.b ∧ 0 ≤ h.c ∧ 0 ≤ h.d) ∧ Unchanged (h.common0.map edit) ∧ h.common1 = []

theorem commonPrinter_eq {e : SesElem Bytes} (h : ∃ x, edit e = .common x) :
    commonPrinter e = changePrinter e := by
  obtain ⟨x, hx⟩ := h
  cases he : e.2.type <;> simp [edit, he] at hx
  rw [commonPrinter, changePrinter, he]

theorem uniHunkPrinter_eq {h : UniHunk Bytes} (hprint : h.Printable) : uniHunkPrinter h =
    headerLine h.told.a h.told.b h.told.c h.told.d ::
      (h.common0 ++ h.change ++ h.common1).map changePrinter := by
  obtain ⟨⟨ha, hb, hc, hd⟩, hcommon, hnone⟩ := hprint
  have hcommon0 : h.common0.map commonPrinter = h.common0.map changePrinter := by
    apply List.map_congr_left
    intro e he
    exact commonPrinter_eq (hcommon _ (List.mem_map_of_mem he))
  rw [uniHunkPrinter, hcommon0, hnone, UniHunk.told, Int.toNat_of_nonneg ha,
    Int.toNat_of_nonneg hb, Int.toNat_of_nonneg hc, Int.toNat_of_nonneg hd]
  simp

theorem readLines_hunks {hs : List (UniHunk Bytes)} (hprint : ∀ h ∈ hs, h.Printable) :
    readLines (hs.flatMap uniHunkPrinter) = some ([], hs.map UniHunk.told) := by
  induction hs with
  | nil => rfl
  | cons h hs ih =>
    rw [List.flatMap_cons, uniHunkPrinter_eq (hprint h List.mem_cons_self), List.cons_append,
      readLines_header, readLines_changes, ih fun h' hh' => hprint h' (List.mem_cons_of_mem _ hh')]
    simp [UniHunk.told, UniHunk.lines]

theorem splitOn_lines {ls : List (List Char)} (h : ∀ l ∈ ls, '\n' ∉ l) :
    (ls.flatMap fun l => l ++ ['\n']).splitOn '\n' = ls ++ [[]] := by
  have hjoin : ls.flatMap (fun l => l ++ ['\n']) = ['\n'].intercalate (ls ++ [[]]) := by
    induction ls with
    | nil => rfl
    | cons l ls ih =>
      rw [List.flatMap_cons, ih fun l' hl' => h l' (List.mem_cons_of_mem _ hl')]
      cases ls <;> simp [List.intercalate]
  rw [hjoin, List.splitOn_intercalate]
  · intro l hl
    rcases List.mem_append.mp hl with hl | hl
    · exact h l hl
    · simp [List.mem_singleton.mp hl]
  · simp

theorem readUnifiedFormat_print {hs : List (UniHunk Bytes)} (hprint : ∀ h ∈ hs, h.Printable)
    (hlines : ∀ l ∈ hs.flatMap uniHunkPrinter, '\n' ∉ l) :
    readUnifiedFormat (printUnifiedFormat hs) = some (hs.map UniHunk.told) := by
  rw [readUnifiedFormat, printUnifiedFormat, String.toList_ofList]
  simp only [splitOn_lines hlines, List.dropLast_concat, readLines_hunks hprint]
  simp

end Read

section Lines

variable {α : Type} {ordered : Prop} {i j : ℕ} {s : List (Edit α)} {hs : List (UniHunk α)}

theorem Laid.mem (h : Laid ordered i j hs s) {k : UniHunk α} (hk : k ∈ hs) {e : Edit α}
    (he : e ∈ k.lines) : e ∈ s := by
  induction h with
  | rest => simp at hk
  | hunk hgap hstands _ ih =>
    rcases List.mem_cons.mp hk with rfl | hk
    · have hpiece := hstands.perm.mem_iff.mp he
      simp [hpiece]
    · have hrest := ih hk
      simp [hrest]

/-- The element of an edit is an element of the one content or of the other. -/
theorem mem_before_or_after {e : Edit α} (he : e ∈ s) :
    ∃ x, (e = .delete x ∨ e = .add x ∨ e = .common x) ∧ (x ∈ Edit.before s ∨ x ∈ Edit.after s) := by
  obtain ⟨pre, post, rfl⟩ := List.append_of_mem he
  rw [Edit.before_append, Edit.after_append]
  cases e with
  | delete x => exact ⟨x, by simp, by simp [Edit.before]⟩
  | add x => exact ⟨x, by simp, by simp [Edit.after]⟩
  | common x => exact ⟨x, by simp, by simp [Edit.before]⟩

theorem Laid.printable {s : List (Edit Bytes)} {hs : List (UniHunk Bytes)}
    (h : Laid ordered i j hs s) (hordered : ordered) : ∀ k ∈ hs, k.Printable := by
  induction h with
  | rest => simp
  | hunk hgap hstands _ ih =>
    intro k hk
    rcases List.mem_cons.mp hk with rfl | hk
    · obtain ⟨ha, hc⟩ := hstands.position hordered
      have hb := hstands.b
      have hd := hstands.d
      exact ⟨by omega, hstands.common0, hstands.common1⟩
    · exact ih k hk

end Lines

section Contents

theorem not_mem_of_mem_split {content line : Bytes} (h : line ∈ split content) : 10 ∉ line := by
  induction content generalizing line with
  | nil =>
    rw [split, List.splitOn_nil, List.mem_singleton] at h
    simp [h]
  | cons b content ih =>
    rw [split, List.splitOn_cons_eq_if_modifyHead] at h
    split at h
    · rcases List.mem_cons.mp h with rfl | h
      · simp
      · exact ih h
    · rename_i hb
      cases hrest : content.splitOn 10 with
      | nil => simp [hrest] at h
      | cons first rest =>
        rw [hrest, List.modifyHead_cons] at h
        have hall : ∀ l ∈ first :: rest, 10 ∉ l := fun l hl => ih (by rwa [split, hrest])
        rcases List.mem_cons.mp h with rfl | h
        · have hfirst := hall first List.mem_cons_self
          have hne : ¬ (10 : UInt8) = b := fun heq => hb (by simp [heq])
          simp [hfirst, hne]
        · exact hall line (List.mem_cons_of_mem _ h)

theorem join_split (content : Bytes) : join (split content) = content :=
  List.intercalate_splitOn 10

theorem not_mem_headerLine (a b c d : ℕ) : '\n' ∉ headerLine a b c d := by
  have hnumber : ∀ n : ℕ, '\n' ∉ (toString (n : ℤ)).toList := by
    intro n hmem
    have hdigit := isDigit_of_mem_toString (n := n) hmem
    exact absurd hdigit (by decide)
  simp only [headerLine, List.mem_append, hnumber]
  decide

theorem newline_free {line : Bytes} (h : 10 ∉ line) : '\n' ∉ line.map Char.ofUInt8 := by
  intro hmem
  obtain ⟨b, hb, heq⟩ := List.mem_map.mp hmem
  have hten : b = 10 := by
    have hread := congrArg (fun c => c.toNat.toUInt8) heq
    exact (UInt8.ofNat_toNat (x := b)).symm.trans hread
  exact h (hten ▸ hb)

/-- The contents are not too different for one search. -/
def Similar (old new : Bytes) : Prop :=
  ∃ t, Edit.before t = split old ∧ Edit.after t = split new ∧
    Edit.changes t ^ 2 < 4 * maxCordinatesSize

theorem similar_of_lines {old new : Bytes}
    (h : (split old).length + (split new).length ≤ 2828) : Similar old new := by
  refine ⟨Edit.replacement (split old) (split new), Edit.before_replacement ..,
    Edit.after_replacement .., ?_⟩
  rw [Edit.changes_replacement]
  exact Nat.lt_of_le_of_lt (Nat.pow_le_pow_left h 2) (by decide)

/-- No line of the text has an end of a line in it. -/
theorem Laid.newline_free {ordered : Prop} {i j : ℕ} {s : List (Edit Bytes)}
    {hs : List (UniHunk Bytes)} (h : Laid ordered i j hs s) (hordered : ordered)
    (hlines : ∀ line, line ∈ Edit.before s ∨ line ∈ Edit.after s → 10 ∉ line) :
    ∀ l ∈ hs.flatMap uniHunkPrinter, '\n' ∉ l := by
  intro l hl
  obtain ⟨k, hk, hl⟩ := List.mem_flatMap.mp hl
  rw [uniHunkPrinter_eq (h.printable hordered k hk)] at hl
  rcases List.mem_cons.mp hl with rfl | hl
  · exact not_mem_headerLine _ _ _ _
  · obtain ⟨e, he, rfl⟩ := List.mem_map.mp hl
    obtain ⟨x, hx, hmem⟩ := mem_before_or_after (h.mem hk (List.mem_map_of_mem he))
    have hfree := Dtl.newline_free (hlines x hmem)
    cases he : e.2.type
    all_goals
      obtain rfl : e.1 = x := by simpa [edit, he] using hx
      simpa [changePrinter, he] using hfree

/-- As long as two contents are not too different, the text of their difference makes the new one
of the old one, and the old one of the new one. -/
theorem patch_unifiedDiff {old new : Bytes} (h : Similar old new) :
    ∃ text, unifiedDiff old new = some text ∧ patchText old text = some new ∧
      unpatchText new text = some old := by
  obtain ⟨t, hold, hnew, hsmall⟩ := h
  obtain ⟨d, s, hcompose, hses, hbefore, hafter, -⟩ := compose_shortest t hsmall
  rw [hold, hnew] at hcompose
  rw [hold] at hbefore
  rw [hnew] at hafter
  have hscript : d.ses.map edit = s := by rw [hses, map_edit_numbered]
  have hordered : d.ses = numbered 1 1 (d.ses.map edit) := by rw [hscript, hses]
  have hlaid := composeUnifiedHunks_laid d.swapped d.ses
  have htells := hlaid.tells hordered
  have hlines : ∀ line, line ∈ Edit.before (d.ses.map edit) ∨ line ∈ Edit.after (d.ses.map edit) →
      10 ∉ line := by
    rw [hscript, hbefore, hafter]
    rintro line (hmem | hmem)
    · exact not_mem_of_mem_split hmem
    · exact not_mem_of_mem_split hmem
  have hread := readUnifiedFormat_print (hlaid.printable hordered)
    (hlaid.newline_free hordered hlines)
  rw [hscript, hbefore, hafter] at htells
  refine ⟨_, by rw [unifiedDiff, hcompose]; rfl, ?_, ?_⟩
  · rw [patchText, hread]
    simp only [Option.bind_eq_bind, Option.bind_some, patch, htells.patchFrom_eq]
    exact congrArg some (join_split new)
  · rw [unpatchText, hread]
    simp only [Option.bind_eq_bind, Option.bind_some, patch, htells.reverse.patchFrom_eq]
    exact congrArg some (join_split old)

theorem patch_unifiedDiff_oneLine : ∃ text, unifiedDiff [97] [98] = some text ∧
    patchText [97] text = some [98] ∧ unpatchText [98] text = some [97] :=
  patch_unifiedDiff (similar_of_lines (by decide))

end Contents

end Ctguard.Dtl
