import Mathlib.Algebra.GroupWithZero.Nat
import Mathlib.Data.List.Infix
import Mathlib.Data.List.TakeWhile

/-!
# Messages that end at a dot

A message is sent as text whose lines end in CR LF, and a line that is a dot ends it. The
receiver takes one leading dot off a line. What is sent without more ado arrives as it is
exactly if none of its lines begins with a dot. Texts are put together from pieces: a piece
is guarded if, whatever stands before it, no line begins with a dot in it exactly if a
condition holds, and guarded pieces can be joined.
-/

namespace Ctguard.DotLines

/-- The pieces between line ends. -/
def lines : List Char → List (List Char)
  | [] => [[]]
  | '\r' :: '\n' :: cs => [] :: lines cs
  | c :: cs =>
    match lines cs with
    | [] => [[c]]
    | l :: ls => (c :: l) :: ls

def joinLines (ls : List (List Char)) : List Char := ['\r', '\n'].intercalate ls

/-- The line that ends a message, behind the end of the last line of the message. -/
def endMark : List Char := ['\r', '\n', '.', '\r', '\n']

/-- The start of a line, after another one, that begins with a dot. -/
def dotLine : List Char := ['\r', '\n', '.']

def unstuff : List Char → List Char
  | '.' :: cs => cs
  | cs => cs

/-- The lines of the message in a stream, up to the one that is a dot. -/
def messageLines (stream : List Char) : List (List Char) :=
  (lines stream).takeWhile (· ≠ ['.'])

/-- What is received from a stream, if the line that ends the message is complete. -/
def receive (stream : List Char) : Option (List Char) :=
  if ['.'] ∈ (lines stream).dropLast then some (joinLines ((messageLines stream).map unstuff))
  else none

/-- The text ends where it ends, and arrives as it is. -/
structure Arrives (text : List Char) : Prop where
  ends : ∀ pre post, text ++ endMark = pre ++ endMark ++ post → post = []
  received : receive (text ++ endMark) = some text

section Lines

theorem lines_ne_nil (cs : List Char) : lines cs ≠ [] := by
  fun_induction lines cs with
  | case1 => simp
  | case2 => simp
  | case3 => simp
  | case4 => simp

theorem lines_cons {c : Char} {cs : List Char} (h : ∀ cs', c = '\r' → cs = '\n' :: cs' → False) :
    ∃ l ls, lines cs = l :: ls ∧ lines (c :: cs) = (c :: l) :: ls := by
  cases hls : lines cs with
  | nil => exact absurd hls (lines_ne_nil cs)
  | cons l ls => exact ⟨l, ls, rfl, by rw [lines.eq_3 c cs h, hls]⟩

/-- A line end separates the lines before it from the lines behind it. -/
theorem lines_append (xs ys : List Char) :
    lines (xs ++ '\r' :: '\n' :: ys) = lines xs ++ lines ys := by
  fun_induction lines xs with
  | case1 => simp [lines]
  | case2 cs ih => simp [lines, ih]
  | case3 c cs h hls => exact absurd hls (lines_ne_nil cs)
  | case4 c cs h l ls hls ih =>
    have h' : ∀ cs', c = '\r' → cs ++ '\r' :: '\n' :: ys = '\n' :: cs' → False := by
      intro cs' hc hcs
      cases cs with
      | nil => simp at hcs
      | cons d ds =>
        rw [List.cons_append, List.cons.injEq] at hcs
        exact h ds hc (by rw [hcs.1])
    obtain ⟨l', ls', hrest, hall⟩ := lines_cons h'
    rw [ih, hls, List.cons_append, List.cons.injEq] at hrest
    rw [List.cons_append, hall, ← hrest.1, ← hrest.2, List.cons_append]

theorem lines_eq_singleton_nil {cs : List Char} (h : lines cs = [[]]) : cs = [] := by
  fun_induction lines cs with
  | case1 => rfl
  | case2 cs ih => exact absurd (List.cons.inj h).2 (lines_ne_nil cs)
  | case3 => simp at h
  | case4 => simp at h

theorem joinLines_cons (l : List Char) {ls : List (List Char)} (h : ls ≠ []) :
    joinLines (l :: ls) = l ++ '\r' :: '\n' :: joinLines ls := by
  cases ls with
  | nil => exact absurd rfl h
  | cons k ks => simp [joinLines, List.intercalate, List.intersperse]

@[simp] theorem joinLines_lines (cs : List Char) : joinLines (lines cs) = cs := by
  fun_induction lines cs with
  | case1 => simp [joinLines, List.intercalate]
  | case2 cs ih => rw [joinLines_cons _ (lines_ne_nil cs), ih, List.nil_append]
  | case3 c cs h hls => exact absurd hls (lines_ne_nil cs)
  | case4 c cs h l ls hls ih =>
    rw [hls] at ih
    rw [← ih]
    cases ls with
    | nil => simp [joinLines, List.intercalate]
    | cons k ks =>
      rw [joinLines_cons (c :: l) (List.cons_ne_nil k ks), joinLines_cons l (List.cons_ne_nil k ks),
        List.cons_append]

theorem lines_endMark (cs : List Char) : lines (cs ++ endMark) = lines cs ++ [['.'], []] := by
  rw [endMark, lines_append]
  rfl

theorem lines_around_endMark (pre post : List Char) :
    lines (pre ++ endMark ++ post) = lines pre ++ ['.'] :: lines post := by
  have hsplit : pre ++ endMark ++ post = pre ++ '\r' :: '\n' :: (['.'] ++ '\r' :: '\n' :: post) := by
    simp [endMark]
  rw [hsplit, lines_append, lines_append]
  rfl

end Lines

section Dots

/-- The first line begins with a dot if the text does. -/
theorem first_line (cs : List Char) :
    ∃ l ls, lines cs = l :: ls ∧ (l.head? = some '.' ↔ cs.head? = some '.') := by
  fun_cases lines cs with
  | case1 => exact ⟨[], [], rfl, by simp⟩
  | case2 cs => exact ⟨[], lines cs, rfl, by simp⟩
  | case3 c cs h hls => exact absurd hls (lines_ne_nil cs)
  | case4 c cs h l ls hls => exact ⟨c :: l, ls, rfl, by simp⟩

/-- Where a later line begins with a dot, the line end stands before the dot. -/
theorem dotLine_infix_iff (cs : List Char) :
    dotLine <:+: cs ↔ ∃ l ∈ (lines cs).tail, l.head? = some '.' := by
  fun_induction lines cs with
  | case1 => simp [dotLine]
  | case2 cs ih =>
    obtain ⟨l, ls, hls, hhead⟩ := first_line cs
    have hcs : dotLine <:+: '\r' :: '\n' :: cs ↔ cs.head? = some '.' ∨ dotLine <:+: cs := by
      rw [List.infix_cons_iff, List.infix_cons_iff]
      cases cs with
      | nil => simp [dotLine]
      | cons c cs =>
        have hc : '.' = c ↔ c = '.' := eq_comm
        simp [dotLine, List.cons_prefix_cons, hc]
    rw [hls, List.tail_cons] at ih
    rw [hcs, List.tail_cons, hls, List.exists_mem_cons_iff, hhead, ih]
  | case3 c cs h hls => exact absurd hls (lines_ne_nil cs)
  | case4 c cs h l ls hls ih =>
    have hnot : ¬ dotLine <+: c :: cs := by
      rintro ⟨rest, hrest⟩
      simp only [dotLine, List.cons_append, List.nil_append, List.cons.injEq] at hrest
      exact h _ hrest.1.symm hrest.2.symm
    rw [List.infix_cons_iff, or_iff_right hnot, ih, hls]
    rfl

theorem dotted_line_iff (cs : List Char) :
    (∃ l ∈ lines cs, l.head? = some '.') ↔ cs.head? = some '.' ∨ dotLine <:+: cs := by
  obtain ⟨l, ls, hls, hhead⟩ := first_line cs
  rw [dotLine_infix_iff, hls, List.exists_mem_cons_iff, hhead, List.tail_cons]

/-- What the lines of a text take up, with their line ends. -/
def size (ls : List (List Char)) : ℕ := (ls.map fun l => l.length + 2).sum

theorem length_joinLines {ls : List (List Char)} (h : ls ≠ []) :
    (joinLines ls).length + 2 = size ls := by
  induction ls with
  | nil => exact absurd rfl h
  | cons l ls ih =>
    cases ls with
    | nil => simp [joinLines, List.intercalate, size]
    | cons k ks =>
      have hrest := ih (List.cons_ne_nil k ks)
      rw [joinLines_cons l (List.cons_ne_nil k ks), size, List.map_cons, List.sum_cons, ← size,
        ← hrest]
      simp only [List.length_append, List.length_cons]
      omega

theorem length_joinLines_le (ls : List (List Char)) : (joinLines ls).length ≤ size ls := by
  cases ls with
  | nil => simp [joinLines, List.intercalate, size]
  | cons l ls =>
    have h := length_joinLines (List.cons_ne_nil l ls)
    omega

theorem length_unstuff (l : List Char) :
    (unstuff l).length ≤ l.length ∧ (l.head? = some '.' → (unstuff l).length < l.length) := by
  fun_cases unstuff l with
  | case1 cs => simp
  | case2 _ hnot =>
    refine ⟨le_rfl, ?_⟩
    intro hhead
    cases l with
    | nil => simp at hhead
    | cons c cs =>
      rw [List.head?_cons, Option.some.injEq] at hhead
      subst hhead
      exact absurd rfl (hnot cs)

theorem size_unstuff_le (ls : List (List Char)) : size (ls.map unstuff) ≤ size ls := by
  induction ls with
  | nil => rfl
  | cons l ls ih =>
    have hl := (length_unstuff l).1
    simp only [size, List.map_cons, List.sum_cons] at ih ⊢
    omega

theorem size_unstuff_lt {ls : List (List Char)} (h : ∃ l ∈ ls, l.head? = some '.') :
    size (ls.map unstuff) < size ls := by
  induction ls with
  | nil => simp at h
  | cons l ls ih =>
    have hle := size_unstuff_le ls
    have hl := length_unstuff l
    simp only [size, List.map_cons, List.sum_cons] at ih hle ⊢
    rcases (List.exists_mem_cons_iff ..).mp h with hdot | hrest
    · have := hl.2 hdot
      omega
    · have := ih hrest
      omega

end Dots

section Arrival

variable {text : List Char}

theorem messageLines_endMark (text : List Char) :
    messageLines (text ++ endMark) = (lines text).takeWhile (· ≠ ['.']) := by
  rw [messageLines, lines_endMark, List.takeWhile_append]
  split_ifs with hall
  · have htext : (lines text).takeWhile (· ≠ ['.']) = lines text :=
      (List.takeWhile_prefix _).eq_of_length hall
    rw [htext]
    simp
  · rfl

theorem messageLines_eq (h : ∀ l ∈ lines text, l.head? ≠ some '.') :
    messageLines (text ++ endMark) = lines text := by
  have hnot : ∀ l ∈ lines text, l ≠ ['.'] := by
    rintro l hl rfl
    exact h _ hl rfl
  rw [messageLines_endMark, List.takeWhile_eq_self_iff]
  simpa using hnot

theorem map_unstuff_eq {ls : List (List Char)} (h : ∀ l ∈ ls, l.head? ≠ some '.') :
    ls.map unstuff = ls := by
  induction ls with
  | nil => rfl
  | cons l ls ih =>
    obtain ⟨hl, hls⟩ := List.forall_mem_cons.mp h
    have hkept : unstuff l = l := by
      fun_cases unstuff l with
      | case1 cs => exact absurd rfl hl
      | case2 => rfl
    rw [List.map_cons, hkept, ih hls]

/-- Without dots at the beginnings of its lines, a text arrives. -/
theorem arrives_of_no_dot (h : ∀ l ∈ lines text, l.head? ≠ some '.') : Arrives text := by
  constructor
  · intro pre post heq
    have hlines : lines text ++ ['.'] :: [[]] = lines pre ++ ['.'] :: lines post := by
      rw [← lines_around_endMark, ← heq, lines_endMark]
    rcases List.append_eq_append_iff.mp hlines with ⟨zs, -, hrest⟩ | ⟨zs, htext, hrest⟩
    · cases zs with
      | nil =>
        rw [List.nil_append, List.cons.injEq] at hrest
        exact lines_eq_singleton_nil hrest.2.symm
      | cons z zs =>
        rw [List.cons_append, List.cons.injEq] at hrest
        cases zs with
        | nil => simp at hrest
        | cons z' zs => simp at hrest
    · cases zs with
      | nil =>
        rw [List.nil_append, List.cons.injEq] at hrest
        exact lines_eq_singleton_nil hrest.2
      | cons z zs =>
        rw [List.cons_append, List.cons.injEq] at hrest
        have hmem : ['.'] ∈ lines text := by
          rw [htext, hrest.1]
          simp
        exact absurd rfl (h _ hmem)
  · rw [receive, messageLines_eq h, map_unstuff_eq h, joinLines_lines, if_pos]
    simp [lines_endMark]

/-- What is received of a text with such a dot is shorter than the text. -/
theorem length_received_lt (hdot : ∃ l ∈ lines text, l.head? = some '.') {received : List Char}
    (h : receive (text ++ endMark) = some received) : received.length < text.length := by
  rw [receive] at h
  split_ifs at h
  rw [Option.some.injEq, messageLines_endMark] at h
  have htext := length_joinLines (lines_ne_nil text)
  rw [joinLines_lines] at htext
  have hreceived := congrArg List.length h
  have hle := length_joinLines_le (((lines text).takeWhile (· ≠ ['.'])).map unstuff)
  have hparts := List.takeWhile_append_dropWhile (p := (· ≠ ['.'])) (l := lines text)
  cases hrest : (lines text).dropWhile (· ≠ ['.']) with
  | nil =>
    rw [hrest, List.append_nil] at hparts
    rw [hparts] at hreceived
    have hlt := size_unstuff_lt hdot
    have hne : (lines text).map unstuff ≠ [] := by simpa using lines_ne_nil text
    have hjoined := length_joinLines hne
    omega
  | cons l ls =>
    have hl : l = ['.'] := by
      have hhead := List.head?_dropWhile_not (· ≠ ['.']) (lines text)
      rw [hrest] at hhead
      simpa using hhead
    have hsize : size (lines text) = size ((lines text).takeWhile (· ≠ ['.'])) + (3 + size ls) := by
      conv_lhs => rw [← hparts, hrest, hl]
      simp [size]
    have hun := size_unstuff_le ((lines text).takeWhile (· ≠ ['.']))
    omega

/-- A text arrives exactly if none of its lines begins with a dot. -/
theorem arrives_iff : Arrives text ↔ ¬ ∃ l ∈ lines text, l.head? = some '.' := by
  constructor
  · intro h hdot
    exact absurd (length_received_lt hdot h.received) (lt_irrefl _)
  · intro h
    apply arrives_of_no_dot
    intro l hl hhead
    exact h ⟨l, hl, hhead⟩

end Arrival

section Scan

/-- Where a text stands in a line: somewhere, behind a CR, or at the beginning behind a line
end. -/
inductive Place where
  | within
  | afterCr
  | lineStart
  deriving DecidableEq

def Place.next (p : Place) (c : Char) : Place :=
  if c = '\r' then .afterCr
  else if p = .afterCr ∧ c = '\n' then .lineStart
  else .within

/-- The place behind a text; none if a line in it begins with a dot. -/
def scan : Place → List Char → Option Place
  | p, [] => some p
  | p, c :: cs => if p = .lineStart ∧ c = '.' then none else scan (p.next c) cs

theorem scan_append (p : Place) (xs ys : List Char) :
    scan p (xs ++ ys) = (scan p xs).bind fun q => scan q ys := by
  induction xs generalizing p with
  | nil => rfl
  | cons x xs ih =>
    rw [List.cons_append, scan, scan]
    split_ifs
    · rfl
    · exact ih (p.next x)

/-- The beginning of a text that would complete the start of a line with a dot. -/
def Place.missing : Place → List Char
  | .within => dotLine
  | .afterCr => ['\n', '.']
  | .lineStart => ['.']

theorem scan_eq_none_iff (p : Place) (cs : List Char) :
    scan p cs = none ↔ p.missing <+: cs ∨ dotLine <:+: cs := by
  induction cs generalizing p with
  | nil => cases p <;> simp [scan, Place.missing, dotLine]
  | cons c cs ih =>
    rw [scan, List.infix_cons_iff]
    have hwithin : scan .within cs = none ↔ dotLine <:+: cs := by
      rw [ih, Place.missing, or_iff_right_of_imp List.IsPrefix.isInfix]
    have hdot : '.' = c ↔ c = '.' := eq_comm
    have hcr : '\r' = c ↔ c = '\r' := eq_comm
    have hlf : '\n' = c ↔ c = '\n' := eq_comm
    by_cases hret : c = '\r'
    · subst hret
      cases p <;> simp [ih, Place.next, Place.missing, dotLine]
    · cases p with
      | within => simp [hwithin, Place.next, Place.missing, dotLine, hcr, hret]
      | afterCr =>
        by_cases hfeed : c = '\n'
        · subst hfeed
          simp [ih, Place.next, Place.missing, dotLine]
        · simp [hwithin, Place.next, Place.missing, dotLine, hcr, hret, hlf, hfeed]
      | lineStart =>
        by_cases hmark : c = '.'
        · simp [Place.missing, hmark]
        · simp [hwithin, Place.next, Place.missing, dotLine, hcr, hret, hdot, hmark]

end Scan

section Guarded

/-- Behind any text, no line begins with a dot in this one exactly if the condition holds. -/
def Guarded (cs : List Char) (P : Prop) : Prop := ∀ p, scan p cs = none ↔ ¬ P

variable {xs ys : List Char} {P Q : Prop}

theorem Guarded.append (hx : Guarded xs P) (hy : Guarded ys Q) : Guarded (xs ++ ys) (P ∧ Q) := by
  intro p
  rw [scan_append]
  cases hp : scan p xs with
  | none =>
    have hnot := (hx p).mp hp
    simp [hnot]
  | some q =>
    have hholds : P := by
      by_contra hnot
      rw [(hx p).mpr hnot] at hp
      cases hp
    simp [hholds, hy q]

theorem Guarded.congr (h : Guarded xs P) (hPQ : P ↔ Q) : Guarded xs Q := by
  intro p
  rw [h p, hPQ]

/-- A text in which no line begins with a dot, wherever it stands. -/
def Passes (cs : List Char) : Prop :=
  (scan .within cs).isSome ∧ (scan .afterCr cs).isSome ∧ (scan .lineStart cs).isSome

instance (cs : List Char) : Decidable (Passes cs) := inferInstanceAs (Decidable (_ ∧ _ ∧ _))

/-- Such a text that does not end with a CR or a line end. -/
def Resets (cs : List Char) : Prop :=
  scan .within cs = some .within ∧ scan .afterCr cs = some .within ∧
    scan .lineStart cs = some .within

instance (cs : List Char) : Decidable (Resets cs) := inferInstanceAs (Decidable (_ ∧ _ ∧ _))

theorem Passes.guarded (h : Passes xs) : Guarded xs True := by
  intro p
  obtain ⟨hwithin, hcr, hstart⟩ := h
  cases p <;> simp [Option.isSome_iff_ne_none.mp, *]

theorem Resets.scan_eq (h : Resets xs) (p : Place) : scan p xs = some .within := by
  obtain ⟨hwithin, hcr, hstart⟩ := h
  cases p <;> assumption

/-- A text behind a piece that ends within a line. -/
theorem Resets.guarded (h : Resets xs) (ys : List Char) :
    Guarded (xs ++ ys) (¬ dotLine <:+: ys) := by
  intro p
  rw [scan_append, h.scan_eq p, Option.bind_some, scan_eq_none_iff, Place.missing, not_not,
    or_iff_right_of_imp List.IsPrefix.isInfix]

theorem Guarded.piece (hx : Guarded xs P) {lit : List Char} (h : Passes lit) :
    Guarded (xs ++ lit) P :=
  (hx.append h.guarded).congr (by simp)

theorem Guarded.text (hx : Guarded xs P) {lit : List Char} (h : Resets lit) (ys : List Char) :
    Guarded (xs ++ lit ++ ys) (P ∧ ¬ dotLine <:+: ys) := by
  rw [List.append_assoc]
  exact hx.append (h.guarded ys)

theorem Resets.blanks {lit : List Char} (h : Resets lit) (n : ℕ) :
    Resets (lit ++ List.replicate n ' ') := by
  have hblanks : scan .within (List.replicate n ' ') = some .within := by
    induction n with
    | zero => rfl
    | succ n ih => exact ih
  refine ⟨?_, ?_, ?_⟩ <;> rw [scan_append, h.scan_eq, Option.bind_some, hblanks]

/-- A text behind blanks. -/
theorem Resets.padded {lit : List Char} (h : Resets lit) (n : ℕ) (ys : List Char) :
    Guarded (lit ++ (List.replicate n ' ' ++ ys)) (¬ dotLine <:+: ys) := by
  rw [← List.append_assoc]
  exact (h.blanks n).guarded ys

theorem Guarded.padded (hx : Guarded xs P) {lit : List Char} (h : Resets lit) (n : ℕ)
    (ys : List Char) :
    Guarded (xs ++ lit ++ (List.replicate n ' ' ++ ys)) (P ∧ ¬ dotLine <:+: ys) := by
  rw [List.append_assoc]
  exact hx.append (h.padded n ys)

theorem Guarded.flatMap {α : Type} {f : α → List Char} {C : α → Prop} {as : List α}
    (h : ∀ a ∈ as, Guarded (f a) (C a)) : Guarded (as.flatMap f) (∀ a ∈ as, C a) := by
  induction as with
  | nil =>
    intro p
    simp [scan]
  | cons a as ih =>
    obtain ⟨ha, has⟩ := List.forall_mem_cons.mp h
    rw [List.flatMap_cons]
    exact (ha.append (ih has)).congr List.forall_mem_cons.symm

/-- A guarded text arrives exactly if its condition holds. -/
theorem Guarded.arrives_iff (h : Guarded xs P) : Arrives xs ↔ P := by
  have hstart : ['.'] <+: xs ↔ xs.head? = some '.' := by
    cases xs with
    | nil => simp
    | cons x xs => simp [List.cons_prefix_cons, eq_comm]
  have hscan := scan_eq_none_iff .lineStart xs
  rw [Place.missing, hstart, h .lineStart] at hscan
  rw [DotLines.arrives_iff, dotted_line_iff, ← hscan, not_not]

theorem Guarded.infix_iff (h : Guarded xs P) : dotLine <:+: xs ↔ ¬ P := by
  rw [← h .within, scan_eq_none_iff, Place.missing, or_iff_right_of_imp List.IsPrefix.isInfix]

end Guarded

end Ctguard.DotLines
