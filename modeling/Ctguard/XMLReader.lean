import Ctguard.ParseRules
import Mathlib.Data.List.Infix

/-!
# Reading the characters of a document

`XMLparser` reads its stream through three functions: line breaks are dropped, an escaped
character may be taken as it is, and comments are passed over. Behind what is passed over,
each call delivers one character and leaves the rest. A look at the next character at the
end of the stream leaves the stream so that nothing more can be read.
-/

namespace Ctguard.XML

/-- The stream with its error bits, and the position for messages. -/
structure Reader where
  rest : List Char
  eofbit : Bool := false
  failbit : Bool := false
  line : UInt64 := 1
  position : UInt64 := 0
  escaped : Bool := false

namespace Reader

/-- The text of the exception; the column is one less than what was counted. -/
def parseError (r : Reader) (message : String) : String :=
  toString r.line.toNat ++ ":" ++ toString (r.position - 1).toNat ++ ": " ++ message

def streamError (r : Reader) : String := r.parseError "Unexpected stream error/end"

def good (r : Reader) : Bool := !r.eofbit && !r.failbit

/-- `std::istream::peek`. -/
def peek (r : Reader) : Option Char × Reader :=
  if r.good then
    match r.rest with
    | [] => (none, { r with eofbit := true })
    | c :: _ => (some c, r)
  else (none, { r with failbit := true })

/-- The character that was looked at is consumed. -/
def ignore (r : Reader) : Reader := { r with rest := r.rest.tail, position := r.position + 1 }

/-- `std::istream::unget`, where `c` is the character that was extracted last. -/
def unget (c : Char) (r : Reader) : Reader :=
  if r.failbit then { r with eofbit := false }
  else { r with eofbit := false, rest := c :: r.rest }

/-- The recursion of `get_char_raw`, over what a good stream has left. -/
def rawFrom : List Char → Reader → Except String (Char × Reader)
  | [], r => .error r.streamError
  | c :: cs, r =>
    if c = '\n' then rawFrom cs { r with line := r.line + 1, position := 0 }
    else .ok (c, { r with rest := cs, position := r.position + 1 })

def getCharRaw (r : Reader) : Except String (Char × Reader) :=
  if r.good then rawFrom r.rest r else .error r.streamError

def getCharLow (r : Reader) : Except String (Char × Reader) := do
  let (c, r) ← r.getCharRaw
  if r.escaped = true ∧ c = '\\' then getCharRaw { r with escaped := true }
  else return (c, { r with escaped := false })

/-- The loop up to the two dashes that end a comment. It reads at most as many characters as
the stream has left. -/
def skipComment : ℕ → Reader → Except String Reader
  | 0, r => .error r.streamError
  | n + 1, r => do
    let (c, r) ← r.getCharLow
    let (x, r) := if c = '-' then r.peek else (none, r)
    if c ≠ '-' ∨ x ≠ some '-' then skipComment n r else return r.ignore

/-- A command behind its `<`, with the `!` next; only comments are known. -/
def skipCommand (r : Reader) : Except String Reader := do
  let (c, r) ← r.ignore.getCharLow
  let (x, r) := if c = '-' then r.peek else (none, r)
  if c ≠ '-' ∨ x ≠ some '-' then
    .error (r.parseError ("Unknown command sequence '" ++ c.toString ++ "'"))
  else
    let r := r.ignore
    let r ← skipComment (r.rest.length + 1) r
    let (c, r) ← r.getCharLow
    if c ≠ '>' then
      .error (r.parseError ("Expected closing of command sequence instead of '" ++ c.toString ++
        "'"))
    else return r

/-- `get_char`, with a bound on the number of comments. -/
def getCharWithin : ℕ → Reader → Except String (Char × Reader)
  | 0, r => .error r.streamError
  | n + 1, r => do
    let (c, r) ← r.getCharLow
    if c = '<' then
      let (x, r) := r.peek
      if x = some '!' then
        let r ← r.skipCommand
        getCharWithin n r
      else return (c, r)
    else return (c, r)

def getChar (r : Reader) : Except String (Char × Reader) := getCharWithin (r.rest.length + 1) r

end Reader

/-- A comment as it is recognised; line breaks may stand before its first dashes and before
its last character. -/
inductive Comment : List Char → Prop
  | mk (m n : ℕ) (body : List Char) (hbody : ¬ ['-', '-'] <:+: body ++ ['-']) :
      Comment ('<' :: '!' :: (List.replicate m '\n' ++ '-' :: '-' ::
        (body ++ '-' :: '-' :: (List.replicate n '\n' ++ ['>']))))

/-- What is passed over between two characters. -/
inductive Skipped : List Char → Prop
  | nil : Skipped []
  | newline {cs : List Char} (rest : Skipped cs) : Skipped ('\n' :: cs)
  | comment {cs comment : List Char} (first : Comment comment) (rest : Skipped cs) :
      Skipped (comment ++ cs)

/-- A character is delivered, and text is left behind it. If it is an opening bracket, it is
known what follows. -/
def Delivers (text : List Char) (c : Char) (rest : List Char) : Prop :=
  c ≠ '\n' ∧ (c = '<' → rest ≠ [] ∧ rest.head? ≠ some '!') ∧
    ∃ skipped, Skipped skipped ∧ text = skipped ++ c :: rest

section Reading

/-- A stream that can be read from, with no escape pending. -/
structure Reader.Ready (r : Reader) : Prop where
  eofbit : r.eofbit = false
  failbit : r.failbit = false
  escaped : r.escaped = false

open Reader

variable {r t : Reader} {c : Char}

@[simp] theorem Reader.rest_ignore (r : Reader) : r.ignore.rest = r.rest.tail := rfl

theorem Reader.Ready.good (h : r.Ready) : r.good = true := by
  simp [Reader.good, h.eofbit, h.failbit]

theorem Reader.Ready.ignore (h : r.Ready) : r.ignore.Ready := ⟨h.eofbit, h.failbit, h.escaped⟩

theorem Reader.Ready.peek (h : r.Ready) (hne : r.rest ≠ []) : r.peek = (r.rest.head?, r) := by
  rw [Reader.peek, if_pos h.good]
  cases hrest : r.rest with
  | nil => exact absurd hrest hne
  | cons c cs => rfl

theorem rawFrom_ok {cs : List Char} (h : rawFrom cs r = .ok (c, t)) (hr : r.Ready) :
    t.Ready ∧ c ≠ '\n' ∧ ∃ n, cs = List.replicate n '\n' ++ c :: t.rest := by
  induction cs generalizing r with
  | nil => cases h
  | cons d cs ih =>
    rw [rawFrom] at h
    split_ifs at h with hd
    · obtain ⟨ht, hc, n, hcs⟩ := ih h ⟨hr.eofbit, hr.failbit, hr.escaped⟩
      exact ⟨ht, hc, n + 1, by rw [hcs, hd]; rfl⟩
    · cases h
      exact ⟨⟨hr.eofbit, hr.failbit, hr.escaped⟩, hd, 0, rfl⟩

theorem rawFrom_of_text {cs rest : List Char} {n : ℕ} (hr : r.Ready) (hc : c ≠ '\n')
    (hcs : cs = List.replicate n '\n' ++ c :: rest) :
    ∃ t, rawFrom cs r = .ok (c, t) ∧ t.rest = rest ∧ t.Ready := by
  induction n generalizing r cs with
  | zero =>
    subst hcs
    exact ⟨_, if_neg hc, rfl, hr.eofbit, hr.failbit, hr.escaped⟩
  | succ n ih =>
    subst hcs
    have hnext : Reader.Ready { r with line := r.line + 1, position := 0 } :=
      ⟨hr.eofbit, hr.failbit, hr.escaped⟩
    have hbehind := ih hnext rfl
    exact hbehind

theorem getCharLow_ok (h : r.getCharLow = .ok (c, t)) (hr : r.Ready) :
    t.Ready ∧ c ≠ '\n' ∧ ∃ n, r.rest = List.replicate n '\n' ++ c :: t.rest := by
  rw [getCharLow, getCharRaw, if_pos hr.good, bind_eq_ok] at h
  obtain ⟨⟨d, s⟩, hraw, h⟩ := h
  obtain ⟨hs, hd, n, hrest⟩ := rawFrom_ok hraw hr
  simp only [hs.escaped, Bool.false_eq_true, false_and, if_false] at h
  cases h
  exact ⟨⟨hs.eofbit, hs.failbit, rfl⟩, hd, n, hrest⟩

theorem getCharLow_of_text {rest : List Char} {n : ℕ} (hr : r.Ready) (hc : c ≠ '\n')
    (htext : r.rest = List.replicate n '\n' ++ c :: rest) :
    ∃ t, r.getCharLow = .ok (c, t) ∧ t.rest = rest ∧ t.Ready := by
  obtain ⟨s, hraw, hrest, hs⟩ := rawFrom_of_text hr hc htext
  refine ⟨{ s with escaped := false }, ?_, hrest, hs.eofbit, hs.failbit, rfl⟩
  rw [getCharLow, getCharRaw, if_pos hr.good, bind_eq_ok]
  exact ⟨(c, s), hraw, by simp [hs.escaped, pure, Except.pure]⟩

theorem Reader.Ready.peek_end (h : r.Ready) (hend : r.rest = []) :
    r.peek = (none, { r with eofbit := true }) := by
  rw [Reader.peek, if_pos h.good, hend]

theorem getCharLow_ne_ok (h : r.good = false) : r.getCharLow ≠ .ok (c, t) := by
  intro hok
  rw [getCharLow, getCharRaw, h] at hok
  cases hok

theorem skipComment_ne_ok {n : ℕ} (h : r.good = false) : skipComment n r ≠ .ok t := by
  intro hok
  cases n with
  | zero => cases hok
  | succ n =>
    rw [skipComment, bind_eq_ok] at hok
    obtain ⟨p, hlow, -⟩ := hok
    exact getCharLow_ne_ok h hlow

theorem no_dashes_replicate (n : ℕ) {cs : List Char} (h : ¬ ['-', '-'] <:+: cs) :
    ¬ ['-', '-'] <:+: List.replicate n '\n' ++ cs := by
  induction n with
  | zero => exact h
  | succ n ih =>
    rw [List.replicate_succ, List.cons_append, List.infix_cons_iff, not_or]
    exact ⟨by simp [List.cons_prefix_cons], ih⟩

/-- The loop passes over a text without two dashes, and the two dashes behind it. -/
theorem skipComment_ok {n : ℕ} (h : skipComment n r = .ok t) (hr : r.Ready) :
    t.Ready ∧ ∃ body, r.rest = body ++ '-' :: '-' :: t.rest ∧
      ¬ ['-', '-'] <:+: body ++ ['-'] := by
  induction n generalizing r with
  | zero => cases h
  | succ n ih =>
    rw [skipComment, bind_eq_ok] at h
    obtain ⟨⟨c, s⟩, hlow, h⟩ := h
    obtain ⟨hs, -, k, hrest⟩ := getCharLow_ok hlow hr
    by_cases hc : c = '-'
    · subst hc
      by_cases hne : s.rest = []
      · -- a look at the end of the stream, behind which nothing is read
        simp only [if_true, hs.peek_end hne, ne_eq, not_true, false_or, reduceCtorEq,
          not_false_eq_true] at h
        exact absurd h (skipComment_ne_ok rfl)
      · simp only [if_true, hs.peek hne, ne_eq, not_true, false_or] at h
        split_ifs at h with hdash
        · cases h
          refine ⟨hs.ignore, List.replicate k '\n', ?_, no_dashes_replicate k (by decide)⟩
          obtain ⟨cs, hcs⟩ := List.head?_eq_some_iff.mp hdash
          simp [hrest, hcs]
        · obtain ⟨ht, body, hbody, hdashes⟩ := ih h hs
          refine ⟨ht, List.replicate k '\n' ++ '-' :: body, by simp [hrest, hbody], ?_⟩
          rw [List.append_assoc]
          apply no_dashes_replicate
          rw [List.cons_append, List.infix_cons_iff, not_or]
          refine ⟨?_, hdashes⟩
          rw [List.cons_prefix_cons, not_and]
          intro _ hfront
          apply hdash
          rw [hbody]
          cases body with
          | nil => rfl
          | cons d ds => simpa [List.cons_prefix_cons, eq_comm] using hfront
    · simp only [hc, if_false, ne_eq, not_false_eq_true, true_or, if_true] at h
      obtain ⟨ht, body, hbody, hdashes⟩ := ih h hs
      refine ⟨ht, List.replicate k '\n' ++ c :: body, by simp [hrest, hbody], ?_⟩
      rw [List.append_assoc]
      apply no_dashes_replicate
      rw [List.cons_append, List.infix_cons_iff, not_or]
      exact ⟨by simp [List.cons_prefix_cons, Ne.symm hc], hdashes⟩

/-- The line breaks in front of a text. -/
theorem exists_newlines (cs : List Char) :
    ∃ n ds, cs = List.replicate n '\n' ++ ds ∧ ds.head? ≠ some '\n' := by
  induction cs with
  | nil => exact ⟨0, [], rfl, by simp⟩
  | cons c cs ih =>
    by_cases hc : c = '\n'
    · obtain ⟨n, ds, hcs, hds⟩ := ih
      exact ⟨n + 1, ds, by rw [hc, hcs]; rfl, hds⟩
    · exact ⟨0, c :: cs, rfl, by simpa using hc⟩

theorem skipComment_of_text {n : ℕ} {body rest : List Char} (hr : r.Ready)
    (htext : r.rest = body ++ '-' :: '-' :: rest) (hdashes : ¬ ['-', '-'] <:+: body ++ ['-'])
    (hn : body.length < n) : ∃ t, skipComment n r = .ok t ∧ t.rest = rest ∧ t.Ready := by
  induction n generalizing r body with
  | zero => omega
  | succ n ih =>
    obtain ⟨k, ds, hbody, hds⟩ := exists_newlines body
    rw [skipComment]
    cases ds with
    | nil =>
      have hfirst : r.rest = List.replicate k '\n' ++ '-' :: '-' :: rest := by
        rw [htext, hbody, List.append_nil]
      obtain ⟨s, hlow, hrest, hs⟩ := getCharLow_of_text hr (by decide) hfirst
      have hpeek : s.peek = (some '-', s) := by rw [hs.peek (by simp [hrest]), hrest]; rfl
      refine ⟨s.ignore, ?_, by simp [hrest], hs.ignore⟩
      rw [bind_eq_ok]
      exact ⟨_, hlow, by simp [hpeek, pure, Except.pure]⟩
    | cons c ds =>
      have hfirst : r.rest = List.replicate k '\n' ++ c :: (ds ++ '-' :: '-' :: rest) := by
        simp [htext, hbody]
      obtain ⟨s, hlow, hrest, hs⟩ := getCharLow_of_text hr (by simpa using hds) hfirst
      have hbehind : ¬ ['-', '-'] <:+: c :: (ds ++ ['-']) := by
        intro hinfix
        apply hdashes
        rw [hbody, List.append_assoc]
        exact hinfix.trans (List.suffix_append _ _).isInfix
      rw [List.infix_cons_iff, not_or] at hbehind
      have hlength : ds.length < n := by
        rw [hbody, List.length_append, List.length_cons] at hn
        omega
      obtain ⟨t, ht, htrest, htready⟩ := ih hs hrest hbehind.2 hlength
      refine ⟨t, ?_, htrest, htready⟩
      rw [bind_eq_ok]
      refine ⟨_, hlow, ?_⟩
      by_cases hc : c = '-'
      · have hpeek : s.peek = (s.rest.head?, s) := hs.peek (by simp [hrest])
        have hnot : s.rest.head? ≠ some '-' := by
          intro hhead
          apply hbehind.1
          rw [hc, List.cons_prefix_cons]
          refine ⟨rfl, ?_⟩
          rw [hrest] at hhead
          cases ds with
          | nil => simp
          | cons d ds => simpa [List.cons_prefix_cons, eq_comm] using hhead
        simpa [hc, hpeek, hnot] using ht
      · simpa [hc] using ht

theorem skipCommand_ok (h : r.skipCommand = .ok t) (hr : r.Ready) (hnext : r.rest.head? = some '!') :
    t.Ready ∧ ∃ comment, Comment comment ∧ '<' :: r.rest = comment ++ t.rest := by
  obtain ⟨cs, hcs⟩ := List.head?_eq_some_iff.mp hnext
  rw [skipCommand, bind_eq_ok] at h
  obtain ⟨⟨c, s⟩, hlow, h⟩ := h
  obtain ⟨hs, -, m, hm⟩ := getCharLow_ok hlow hr.ignore
  rw [Reader.rest_ignore, hcs, List.tail_cons] at hm
  by_cases hc : c = '-'
  · subst hc
    by_cases hne : s.rest = []
    · simp [hs.peek_end hne] at h
    · simp only [if_true, hs.peek hne, ne_eq, not_true, false_or] at h
      split_ifs at h with hdash
      obtain ⟨ds, hds⟩ := List.head?_eq_some_iff.mp hdash
      rw [bind_eq_ok] at h
      obtain ⟨s₁, hskip, h⟩ := h
      obtain ⟨hs₁, body, hbody, hdashes⟩ := skipComment_ok hskip hs.ignore
      rw [bind_eq_ok] at h
      obtain ⟨⟨d, s₂⟩, hlow₂, h⟩ := h
      obtain ⟨hs₂, -, n, hn⟩ := getCharLow_ok hlow₂ hs₁
      simp only at h
      split_ifs at h with hd
      cases h
      refine ⟨hs₂, _, .mk m n body hdashes, ?_⟩
      rw [Reader.rest_ignore, hds, List.tail_cons] at hbody
      simp [hcs, hm, hds, hbody, hn, hd]
  · simp [hc] at h

theorem skipCommand_of_comment {comment rest : List Char} (hcomment : Comment comment)
    (hr : r.Ready) (htext : '<' :: r.rest = comment ++ rest) :
    r.rest.head? = some '!' ∧ ∃ t, r.skipCommand = .ok t ∧ t.rest = rest ∧ t.Ready := by
  cases hcomment with
  | mk m n body hdashes =>
    rw [List.cons_append, List.cons.injEq] at htext
    replace htext := htext.2
    refine ⟨by simp [htext], ?_⟩
    have hfirst : r.ignore.rest = List.replicate m '\n' ++ '-' ::
        ('-' :: (body ++ '-' :: '-' :: (List.replicate n '\n' ++ '>' :: rest))) := by
      simp [htext]
    obtain ⟨s, hlow, hs, hready⟩ := getCharLow_of_text hr.ignore (by decide) hfirst
    have hpeek : s.peek = (some '-', s) := by rw [hready.peek (by simp [hs]), hs]; rfl
    have hbody : s.ignore.rest = body ++ '-' :: '-' :: (List.replicate n '\n' ++ '>' :: rest) := by
      simp [hs]
    obtain ⟨s₁, hskip, hs₁, hready₁⟩ := skipComment_of_text hready.ignore hbody hdashes
      (by rw [hbody, List.length_append]; omega : body.length < s.ignore.rest.length + 1)
    obtain ⟨t, hlast, ht, htready⟩ := getCharLow_of_text hready₁ (by decide) hs₁
    refine ⟨t, ?_, ht, htready⟩
    rw [skipCommand, bind_eq_ok]
    refine ⟨_, hlow, ?_⟩
    simp only [if_true, hpeek, ne_eq, not_true, false_or, if_false]
    rw [bind_eq_ok]
    refine ⟨s₁, hskip, ?_⟩
    rw [bind_eq_ok]
    exact ⟨_, hlast, rfl⟩

theorem Comment.exists_tail {comment : List Char} (h : Comment comment) :
    ∃ cs, comment = '<' :: cs := by
  cases h with
  | mk m n body hbody => exact ⟨_, rfl⟩

theorem Skipped.newlines {cs : List Char} (h : Skipped cs) (n : ℕ) :
    Skipped (List.replicate n '\n' ++ cs) := by
  induction n with
  | zero => exact h
  | succ n ih => exact .newline ih

theorem Skipped.exists_first {cs : List Char} (h : Skipped cs) :
    ∃ n, cs = List.replicate n '\n' ∨ ∃ comment ds, Comment comment ∧ Skipped ds ∧
      cs = List.replicate n '\n' ++ (comment ++ ds) := by
  induction h with
  | nil => exact ⟨0, .inl rfl⟩
  | newline _ ih =>
    obtain ⟨n, rfl | ⟨comment, ds, hcomment, hds, rfl⟩⟩ := ih
    · exact ⟨n + 1, .inl rfl⟩
    · exact ⟨n + 1, .inr ⟨comment, ds, hcomment, hds, rfl⟩⟩
  | comment first rest _ => exact ⟨0, .inr ⟨_, _, first, rest, rfl⟩⟩

/-- What `get_char` returns, and what it leaves. At the end of the stream it may return an
opening bracket behind which nothing can be read. -/
theorem getCharWithin_ok {n : ℕ} (h : getCharWithin n r = .ok (c, t)) (hr : r.Ready) :
    (∃ skipped, Skipped skipped ∧ r.rest = skipped ++ c :: t.rest) ∧ c ≠ '\n' ∧
      t.escaped = false ∧ (c = '<' ∧ t.rest = [] ∨
        t.Ready ∧ (c = '<' → t.rest ≠ [] ∧ t.rest.head? ≠ some '!')) := by
  induction n generalizing r with
  | zero => cases h
  | succ n ih =>
    rw [getCharWithin, bind_eq_ok] at h
    obtain ⟨⟨d, s⟩, hlow, h⟩ := h
    obtain ⟨hs, hd, k, hk⟩ := getCharLow_ok hlow hr
    by_cases hopen : d = '<'
    · subst hopen
      by_cases hne : s.rest = []
      · simp only [if_true, hs.peek_end hne, reduceCtorEq, if_false] at h
        cases h
        exact ⟨⟨_, Skipped.nil.newlines k, by simp [hk]⟩, hd, hs.escaped, .inl ⟨rfl, hne⟩⟩
      · simp only [if_true, hs.peek hne] at h
        split_ifs at h with hnext
        · rw [bind_eq_ok] at h
          obtain ⟨s₁, hskip, h⟩ := h
          obtain ⟨hs₁, comment, hcomment, htext⟩ := skipCommand_ok hskip hs hnext
          obtain ⟨⟨skipped, hskipped, hrest⟩, hc, hescaped, hlook⟩ := ih h hs₁
          refine ⟨⟨_, (hskipped.comment hcomment).newlines k, ?_⟩, hc, hescaped, hlook⟩
          rw [hk, htext, hrest]
          simp
        · cases h
          exact ⟨⟨_, Skipped.nil.newlines k, by simp [hk]⟩, hd, hs.escaped,
            .inr ⟨hs, fun _ => ⟨hne, hnext⟩⟩⟩
    · simp only [hopen, if_false] at h
      cases h
      exact ⟨⟨_, Skipped.nil.newlines k, by simp [hk]⟩, hd, hs.escaped,
        .inr ⟨hs, fun heq => absurd heq hopen⟩⟩

theorem getCharWithin_of_skipped {n : ℕ} {skipped rest : List Char} (hskipped : Skipped skipped)
    (hr : r.Ready) (hc : c ≠ '\n') (hlook : c = '<' → rest ≠ [] ∧ rest.head? ≠ some '!')
    (htext : r.rest = skipped ++ c :: rest) (hn : skipped.length < n) :
    ∃ t, getCharWithin n r = .ok (c, t) ∧ t.rest = rest ∧ t.Ready := by
  induction n generalizing r skipped with
  | zero => omega
  | succ n ih =>
    obtain ⟨k, rfl | ⟨comment, ds, hcomment, hds, rfl⟩⟩ := hskipped.exists_first
    · obtain ⟨t, hlow, ht, hready⟩ := getCharLow_of_text hr hc htext
      refine ⟨t, ?_, ht, hready⟩
      rw [getCharWithin, bind_eq_ok]
      refine ⟨_, hlow, ?_⟩
      by_cases hopen : c = '<'
      · obtain ⟨hne, hnot⟩ := hlook hopen
        rw [← ht] at hne hnot
        simp [hopen, hready.peek hne, hnot, pure, Except.pure]
      · simp [hopen, pure, Except.pure]
    · obtain ⟨cs, hcs⟩ := hcomment.exists_tail
      have hfirst : r.rest = List.replicate k '\n' ++ '<' :: (cs ++ (ds ++ c :: rest)) := by
        rw [htext, hcs]
        simp
      obtain ⟨s, hlow, hs, hready⟩ := getCharLow_of_text hr (by decide) hfirst
      have hcommand : '<' :: s.rest = comment ++ (ds ++ c :: rest) := by
        rw [hs, hcs, List.cons_append]
      obtain ⟨hnext, s₁, hskip, hs₁, hready₁⟩ := skipCommand_of_comment hcomment hready hcommand
      have hlength : ds.length < n := by
        rw [hcs, List.length_append, List.length_append, List.length_cons] at hn
        omega
      obtain ⟨t, ht, htrest, htready⟩ := ih hds hready₁ hs₁ hlength
      refine ⟨t, ?_, htrest, htready⟩
      rw [getCharWithin, bind_eq_ok]
      refine ⟨_, hlow, ?_⟩
      have hne : s.rest ≠ [] := by
        intro hnil
        rw [hnil] at hnext
        cases hnext
      simp only [if_true, hready.peek hne, hnext]
      rw [bind_eq_ok]
      exact ⟨s₁, hskip, ht⟩

theorem getChar_ok (h : r.getChar = .ok (c, t)) (hr : r.Ready) :
    (∃ skipped, Skipped skipped ∧ r.rest = skipped ++ c :: t.rest) ∧ c ≠ '\n' ∧
      t.escaped = false ∧ (c = '<' ∧ t.rest = [] ∨
        t.Ready ∧ (c = '<' → t.rest ≠ [] ∧ t.rest.head? ≠ some '!')) :=
  getCharWithin_ok h hr

theorem getChar_of_delivers {rest : List Char} (h : Delivers r.rest c rest) (hr : r.Ready) :
    ∃ t, r.getChar = .ok (c, t) ∧ t.rest = rest ∧ t.Ready := by
  obtain ⟨hc, hlook, skipped, hskipped, htext⟩ := h
  exact getCharWithin_of_skipped hskipped hr hc hlook htext
    (by rw [htext, List.length_append]; omega : skipped.length < r.rest.length + 1)

theorem Delivers.unique {text rest rest' : List Char} {c' : Char} (h : Delivers text c rest)
    (h' : Delivers text c' rest') : c = c' ∧ rest = rest' := by
  obtain ⟨r, hget, rfl, -⟩ := @getChar_of_delivers { rest := text } c rest h ⟨rfl, rfl, rfl⟩
  obtain ⟨r', hget', rfl, -⟩ := @getChar_of_delivers { rest := text } c' rest' h' ⟨rfl, rfl, rfl⟩
  rw [hget, Except.ok.injEq, Prod.mk.injEq] at hget'
  exact ⟨hget'.1, by rw [hget'.2]⟩

/-- What is delivered has no line break or comment before it. -/
theorem Delivers.behind_skipped {text rest : List Char} (h : Delivers text c rest) :
    Delivers (c :: rest) c rest := ⟨h.1, h.2.1, [], .nil, rfl⟩

end Reading

end Ctguard.XML
