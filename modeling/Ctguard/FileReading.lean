import Ctguard.FileDataFactory
import Ctguard.Sha256Digest

/-!
# The calls that read a file

`file_data_factory::construct` reads a file with one call after the other. Each of them fills as
much of a buffer as it pleases; the digest is updated, a zero in the buffer ends the hope for a
difference, and the rest of the text is put aside. Of the file, that is all one reading.
-/

namespace Ctguard.AlertTask

open Sha2 Sha2.Standard

/-- What a call of `read` has put into the buffer. -/
abbrev Chunk := {buf : Bytes // buf ≠ [] ∧ buf.length ≤ 16384}

/-- What the calls of `read` return. The last one returns 0, or it fails. -/
structure Reads where
  chunks : List Chunk
  failed : Bool

/-- The variables of the loop. -/
structure ReadLoop where
  ctx : Context
  computeDiff : Bool
  ocontent : Bytes

/-- The body of the loop. -/
def ReadLoop.take (s : ReadLoop) (buf : Bytes) : ReadLoop :=
  let s := { s with ctx := update s.ctx buf }
  if s.computeDiff then
    if buf.contains 0 then { s with computeDiff := false }
    else { s with ocontent := s.ocontent ++ buf }
  else s

/-- All that is read. -/
def Reads.content (reads : Reads) : Bytes := (reads.chunks.map Subtype.val).flatten

/-- What is done behind the loop, if no call has failed. -/
def ReadLoop.put (host : FileHost) (diffs : DiffTable) (fd : FileData) (s : ReadLoop) :
    Except String (FileData × DiffTable) := do
  let fd := { fd with sha256 := String.ofList (finish s.ctx) }
  let (fd, diffs) ←
    if s.computeDiff then storeContent host diffs fd s.ocontent else pure (fd, diffs)
  return ({ fd with contentChecked := true }, diffs)

/-- The part of `file_data_factory::construct` that deals with a file, call by call. -/
def readCalls (host : FileHost) (maxDiffSize : UInt32) (file : Option Reads) (diffs : DiffTable)
    (fd : FileData) (checkDiff : Bool) : Except String (FileData × DiffTable) := do
  let computeDiff := checkDiff && decide (fd.size < maxDiffSize.toNat)
  match file with
  | none => return (fd, diffs)
  | some reads =>
    if computeDiff then
      bindText fd.path
    let s := (reads.chunks.map Subtype.val).foldl ReadLoop.take ⟨init, computeDiff, []⟩
    if reads.failed then
      return (fd, diffs)
    s.put host diffs fd

section Loop

/-- What the loop has, once it has read some bytes. -/
structure ReadLoop.Has (computeDiff : Bool) (content : Bytes) (s : ReadLoop) : Prop where
  holds : Holds content s.ctx
  computeDiff : s.computeDiff = (computeDiff && !content.contains 0)
  ocontent : s.computeDiff = true → s.ocontent = content

variable {computeDiff : Bool} {content : Bytes} {s : ReadLoop}

theorem ReadLoop.Has.take (h : s.Has computeDiff content) (buf : Bytes) :
    (s.take buf).Has computeDiff (content ++ buf) := by
  have hupdate := h.holds.update buf
  have hcontains : (content ++ buf).contains 0 = (content.contains 0 || buf.contains 0) :=
    List.contains_append
  have hsofar := h.computeDiff
  cases hcompute : s.computeDiff with
  | false =>
    rw [hcompute] at hsofar
    simp only [ReadLoop.take, hcompute, Bool.false_eq_true, if_false]
    refine ⟨hupdate, ?_, fun hsome => Bool.noConfusion hsome⟩
    rw [hcontains, Bool.not_or, ← Bool.and_assoc, ← hsofar, Bool.false_and]
  | true =>
    rw [hcompute] at hsofar
    simp only [ReadLoop.take, hcompute, if_true]
    split
    · rename_i hzero
      refine ⟨hupdate, ?_, fun hsome => Bool.noConfusion hsome⟩
      rw [hcontains, hzero, Bool.or_true, Bool.not_true, Bool.and_false]
    · rename_i hzero
      refine ⟨hupdate, ?_, fun _ => by rw [h.ocontent hcompute]⟩
      rw [hcontains, Bool.not_or, ← Bool.and_assoc, ← hsofar, Bool.eq_false_of_not_eq_true hzero]
      rfl

theorem ReadLoop.Has.foldl (h : s.Has computeDiff content) (bufs : List Bytes) :
    (bufs.foldl ReadLoop.take s).Has computeDiff (content ++ bufs.flatten) := by
  induction bufs generalizing content s with
  | nil =>
    rw [List.flatten_nil, List.append_nil]
    exact h
  | cons buf bufs ih =>
    rw [List.flatten_cons, ← List.append_assoc]
    exact ih (h.take buf)

theorem has_start (computeDiff : Bool) : ReadLoop.Has computeDiff [] ⟨init, computeDiff, []⟩ where
  holds := holds_init
  computeDiff := (Bool.and_true computeDiff).symm
  ocontent _ := rfl

end Loop

section Refinement

theorem hexDigit_ne_zero (i : ℕ) : hexDigits.getD i '0' ≠ '\x00' := by
  by_cases hi : i < 16
  · interval_cases i
    all_goals decide
  · have hnone : hexDigits[i]? = none := List.getElem?_eq_none (Nat.le_of_not_lt hi)
    rw [List.getD_eq_getElem?_getD, hnone]
    decide

/-- The digest of the standard, as text. -/
def digestText (content : Bytes) : CText where
  text := String.ofList (hex (digest content))
  zero_free := by
    rw [String.toList_ofList, hex]
    intro hmem
    obtain ⟨d, -, hd⟩ := List.mem_flatMap.mp hmem
    rcases List.mem_pair.mp hd with hd | hd
    all_goals exact hexDigit_ne_zero _ hd.symm

/-- A host with the digest of the standard. -/
def FileHost.digesting (host : FileHost) : FileHost := { host with sha256 := digestText }

/-- What comes of the calls. -/
def readingOf : Option Reads → Reading
  | none => .notOpened
  | some reads => if reads.failed then .notRead else .bytes reads.content

variable {host : FileHost} {diffs : DiffTable}

theorem storeContent_checked (host : FileHost) (diffs : DiffTable) (fd : FileData)
    (content : Bytes) :
    storeContent host.digesting diffs { fd with contentChecked := true } content =
      (storeContent host diffs fd content >>= fun r =>
        pure ({ r.1 with contentChecked := true }, r.2)) := by
  rw [storeContent, storeContent]
  simp only
  split
  · cases bindBytes content with
    | error what => rfl
    | ok _ =>
      cases bindText fd.path with
      | error what => rfl
      | ok _ => rfl
  · cases bindText fd.path with
    | error what => rfl
    | ok _ =>
      cases bindBytes content with
      | error what => rfl
      | ok _ => rfl

/-- Behind the loop, the whole content is there. -/
theorem ReadLoop.Has.put {computeDiff : Bool} {content : Bytes} {s : ReadLoop}
    (h : s.Has computeDiff content) (fd : FileData) :
    s.put host diffs fd =
      if computeDiff && !content.contains 0 then
        storeContent host.digesting diffs
          { fd with sha256 := (digestText content).text, contentChecked := true } content
      else
        .ok ({ fd with sha256 := (digestText content).text, contentChecked := true }, diffs) := by
  have hdigest : String.ofList (finish s.ctx) = (digestText content).text := by
    rw [finish_eq, h.holds.final, digestText]
  have hcompute := h.computeDiff
  cases hcase : computeDiff && !content.contains 0 with
  | false =>
    rw [hcase] at hcompute
    rw [ReadLoop.put, hcompute, hdigest]
    rfl
  | true =>
    rw [hcase] at hcompute
    have hchecked := storeContent_checked host diffs
      { fd with sha256 := (digestText content).text } content
    rw [ReadLoop.put, hcompute, hdigest, h.ocontent hcompute, if_pos rfl, hchecked]
    rfl

/-- However the file is cut into pieces, it is read as a whole, and its digest is that of the
standard. -/
theorem readCalls_eq_readFile (host : FileHost) (maxDiffSize : UInt32) (answers : Answers)
    (file : Option Reads) (diffs : DiffTable) (fd : FileData) (checkDiff : Bool) :
    readCalls host maxDiffSize file diffs fd checkDiff =
      readFile host.digesting maxDiffSize { answers with reading := readingOf file } diffs fd
        checkDiff := by
  cases file with
  | none => rfl
  | some reads =>
    have hloop := (has_start (checkDiff && decide (fd.size < maxDiffSize.toNat))).foldl
      (reads.chunks.map Subtype.val)
    rw [List.nil_append, ← Reads.content] at hloop
    rw [readCalls, readFile, readingOf]
    cases hfailed : reads.failed with
    | true => rfl
    | false =>
      simp only [Bool.false_eq_true, if_false, hloop.put]
      rfl

end Refinement

end Ctguard.AlertTask
