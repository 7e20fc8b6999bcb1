import Ctguard.ConfigLexer

/-!
# The pieces of a configuration

The lexer cuts a text into blanks, comments and the texts of tokens, up to the first character
that it takes for the end of the input. Each token stands at the position of its first character.
-/

namespace Ctguard

theorem quoteChar_ne_eofChar {q : Char} (h : q = '"' ∨ q = '\'') : q ≠ eofChar := by
  rcases h with rfl | rfl <;> decide

namespace Position

/-- What reading a text does to the position. -/
def pastAll (p : Position) (cs : List Char) : Position := cs.foldl past p

@[simp] theorem pastAll_nil (p : Position) : p.pastAll [] = p := rfl

@[simp] theorem pastAll_cons (p : Position) (c : Char) (cs : List Char) :
    p.pastAll (c :: cs) = (p.past c).pastAll cs := rfl

theorem pastAll_append (p : Position) (cs ds : List Char) :
    p.pastAll (cs ++ ds) = (p.pastAll cs).pastAll ds := List.foldl_append

end Position

section Cursors

/-- The cursor that has read up to a text, and its first character. -/
def cursorAt (pos : Position) (text : List Char) : Cursor :=
  Cursor.mygetchar { input := text, position := pos, lastChar := ' ' }

variable {pos : Position} {text rest : List Char} {x : Char} {p : Char → Bool}

@[simp] theorem lastChar_cursorAt_nil : (cursorAt pos []).lastChar = eofChar := rfl

@[simp] theorem lastChar_cursorAt_cons : (cursorAt pos (x :: rest)).lastChar = x := rfl

@[simp] theorem position_cursorAt_nil : (cursorAt pos []).position = pos.past eofChar := rfl

@[simp] theorem position_cursorAt_cons : (cursorAt pos (x :: rest)).position = pos.past x := rfl

theorem mygetchar_cursorAt : (cursorAt pos (x :: rest)).mygetchar = cursorAt (pos.past x) rest := by
  cases rest <;> rfl

theorem length_input_cursorAt : (cursorAt pos text).input.length = text.length - 1 := by
  cases text <;> rfl

theorem unread_cursorAt (t : Token) : (Lexer.mk (cursorAt pos text) t).unread = text := by
  cases text <;> rfl

/-- A loop takes the characters up to the first for which its condition fails. -/
theorem collectWithin_cursorAt (hend : p eofChar = false) {n : ℕ} (hn : text.length < n) :
    Cursor.collectWithin p n (cursorAt pos text) =
      (text.takeWhile p, cursorAt (pos.pastAll (text.takeWhile p)) (text.dropWhile p)) := by
  induction text generalizing pos n with
  | nil => cases n with
    | zero => cases hn
    | succ n => simp [Cursor.collectWithin, hend]
  | cons x rest ih => cases n with
    | zero => cases hn
    | succ n =>
      rw [Cursor.collectWithin, lastChar_cursorAt_cons, mygetchar_cursorAt,
        ih (Nat.lt_of_succ_lt_succ hn)]
      cases hx : p x <;> simp [hx]

theorem collect_cursorAt (hend : p eofChar = false) : (cursorAt pos text).collect p =
    (text.takeWhile p, cursorAt (pos.pastAll (text.takeWhile p)) (text.dropWhile p)) := by
  refine collectWithin_cursorAt hend ?_
  rw [length_input_cursorAt]
  omega

end Cursors

/-- A part of the text that is read as a whole. -/
inductive Piece where
  | blank (c : Char)
  | comment (cs : List Char)
  | quoted (q : Char) (cs : List Char)
  | unclosed (q : Char) (cs : List Char)
  | word (c : Char) (cs : List Char)
  | number (c : Char) (cs : List Char)
  | mark (c : Char)
  deriving DecidableEq, Repr

namespace Piece

def head : Piece → Char
  | blank c => c
  | comment _ => '#'
  | quoted q _ => q
  | unclosed q _ => q
  | word c _ => c
  | number c _ => c
  | mark c => c

/-- What stands behind the first character. -/
def tail : Piece → List Char
  | blank _ => []
  | comment cs => cs
  | quoted q cs => cs ++ [q]
  | unclosed _ cs => cs
  | word _ cs => cs
  | number _ cs => cs
  | mark _ => []

def text (p : Piece) : List Char := p.head :: p.tail

/-- The type and the content of the token. -/
def token? : Piece → Option (TokenType × String)
  | blank _ => none
  | comment _ => none
  | quoted _ cs => some (.string, String.ofList cs)
  | unclosed _ cs => some (.unknown, String.ofList cs)
  | word c cs => some (.identifier, String.ofList (c :: cs))
  | number c cs => some (.integer, String.ofList (c :: cs))
  | mark c => some (.unknown, String.ofList [c])

/-- A character that is a token of its own. -/
def isMark (c : Char) : Bool :=
  !isSpace c && c ≠ '"' && c ≠ '\'' && !c.isAlpha && !c.isDigit && c ≠ '#' && c ≠ eofChar

def Valid : Piece → Prop
  | blank c => isSpace c = true
  | comment cs => ∀ c ∈ cs, inComment c = true
  | quoted q cs => (q = '"' ∨ q = '\'') ∧ ∀ c ∈ cs, inQuotes q c = true
  | unclosed q cs => (q = '"' ∨ q = '\'') ∧ ∀ c ∈ cs, inQuotes q c = true
  | word c cs => c.isAlpha = true ∧ ∀ d ∈ cs, isWordChar d = true
  | number c cs => c.isDigit = true ∧ ∀ d ∈ cs, d.isDigit = true
  | mark c => isMark c = true

/-- The piece ends in front of what follows: there, the condition of its loop fails. -/
def Stops (p : Piece) (after : List Char) : Prop :=
  match p with
  | comment _ => ∀ c ∈ after.head?, inComment c = false
  | unclosed _ _ => ∀ c ∈ after.head?, c = eofChar
  | word _ _ => ∀ c ∈ after.head?, isWordChar c = false
  | number _ _ => ∀ c ∈ after.head?, c.isDigit = false
  | _ => True

end Piece

/-- The text of some pieces. -/
def texts (ps : List Piece) : List Char := ps.flatMap Piece.text

@[simp] theorem texts_nil : texts [] = [] := rfl

@[simp] theorem texts_cons (p : Piece) (ps : List Piece) : texts (p :: ps) = p.text ++ texts ps := rfl

@[simp] theorem texts_append (ps qs : List Piece) : texts (ps ++ qs) = texts ps ++ texts qs :=
  List.flatMap_append

/-- The pieces in front of a rest that is empty, or starts with what is taken for the end. -/
inductive Lexed : List Piece → List Char → Prop
  | done {rest : List Char} (hend : ∀ c ∈ rest.head?, c = eofChar) : Lexed [] rest
  | cons {p : Piece} {ps : List Piece} {rest : List Char} (valid : p.Valid)
      (stops : p.Stops (texts ps ++ rest)) (behind : Lexed ps rest) : Lexed (p :: ps) rest

/-- The next token, the position behind it, and the pieces there. -/
def nextOf : Position → List Piece → Token × Position × List Piece
  | pos, [] => (⟨.eof, pos.past eofChar, ""⟩, pos, [])
  | pos, p :: ps =>
    match p.token? with
    | some (type, content) => (⟨type, pos.past p.head, content⟩, pos.pastAll p.text, ps)
    | none => nextOf (pos.pastAll p.text) ps

/-- The tokens of some pieces, with the end of the input behind them. -/
def tokensAt : Position → List Piece → List Token
  | pos, [] => [⟨.eof, pos.past eofChar, ""⟩]
  | pos, p :: ps =>
    match p.token? with
    | some (type, content) =>
      ⟨type, pos.past p.head, content⟩ :: tokensAt (pos.pastAll p.text) ps
    | none => tokensAt (pos.pastAll p.text) ps

section Lexing

variable {pos : Position} {ps : List Piece} {rest : List Char}

theorem takeWhile_stops {q : Char → Bool} {cs after : List Char} (hcs : ∀ c ∈ cs, q c = true)
    (hafter : ∀ c ∈ after.head?, q c = false) :
    (cs ++ after).takeWhile q = cs ∧ (cs ++ after).dropWhile q = after := by
  induction cs with
  | nil => cases after with
    | nil => exact ⟨rfl, rfl⟩
    | cons c after => simp [hafter c rfl]
  | cons c cs ih =>
    obtain ⟨hc, hrest⟩ := List.forall_mem_cons.mp hcs
    simp [hc, ih hrest]

/-- What begins a token is no space. -/
theorem not_isSpace {c : Char} (h : c.isAlpha = true ∨ c.isDigit = true) : isSpace c = false := by
  by_contra hspace
  rw [Bool.not_eq_false, isSpace, decide_eq_true_eq] at hspace
  simp only [List.mem_cons, List.not_mem_nil, or_false] at hspace
  rcases hspace with rfl | rfl | rfl | rfl | rfl | rfl
  all_goals revert h; decide

theorem not_quote {c : Char} (h : c.isAlpha = true ∨ c.isDigit = true) :
    ¬ (c = '"' ∨ c = '\'') := by
  rintro (rfl | rfl)
  all_goals revert h; decide

theorem not_isAlpha {c : Char} (h : c.isDigit = true) : c.isAlpha = false := by
  simp only [Char.isDigit, Bool.and_eq_true, decide_eq_true_eq] at h
  change (decide (c.val ≥ 'A'.val ∧ c.val ≤ 'Z'.val) ||
    (decide (c.val ≥ 'a'.val) && decide (c.val ≤ 'z'.val))) = false
  simp only [Bool.or_eq_false_iff, Bool.and_eq_false_iff, decide_eq_false_iff_not,
    UInt32.le_iff_toNat_le] at h ⊢
  grind

theorem collect_isSpace_cursorAt {c : Char} {after : List Char} (h : isSpace c = false) :
    (cursorAt pos (c :: after)).collect isSpace = ([], cursorAt pos (c :: after)) := by
  rw [collect_cursorAt (by decide)]
  simp [h]

theorem collect_behind {p : Char → Bool} {c : Char} {cs after : List Char}
    (hend : p eofChar = false) (hcs : ∀ d ∈ cs, p d = true)
    (hafter : ∀ d ∈ after.head?, p d = false) :
    (cursorAt pos (c :: (cs ++ after))).mygetchar.collect p =
      (cs, cursorAt ((pos.past c).pastAll cs) after) := by
  obtain ⟨htake, hdrop⟩ := takeWhile_stops hcs hafter
  rw [mygetchar_cursorAt, collect_cursorAt hend, htake, hdrop]

/-- A string is read up to its second quote. -/
theorem quotedString_closed {q : Char} {cs after : List Char} {start : Position}
    (hcs : ∀ c ∈ cs, inQuotes q c = true) :
    quotedString q start (cursorAt pos (q :: (cs ++ [q] ++ after))) =
      (⟨.string, start, String.ofList cs⟩,
        cursorAt (pos.pastAll (q :: (cs ++ [q]))) after) := by
  have hafter : ∀ d ∈ (q :: after).head?, inQuotes q d = false := by simp [inQuotes]
  have hend : inQuotes q eofChar = false := by simp [inQuotes]
  rw [List.append_assoc, List.singleton_append, quotedString, collect_behind hend hcs hafter]
  simp [mygetchar_cursorAt, Position.pastAll_append]

/-- A string without a second quote is read up to the end of the input. -/
theorem quotedString_unclosed {q : Char} {cs after : List Char} {start : Position}
    (hq : q = '"' ∨ q = '\'') (hcs : ∀ c ∈ cs, inQuotes q c = true)
    (hafter : ∀ c ∈ after.head?, c = eofChar) :
    quotedString q start (cursorAt pos (q :: (cs ++ after))) =
      (⟨.unknown, start, String.ofList cs⟩, cursorAt (pos.pastAll (q :: cs)) after) := by
  have hend : inQuotes q eofChar = false := by simp [inQuotes]
  have hstop : ∀ d ∈ after.head?, inQuotes q d = false := fun d hd => hafter d hd ▸ hend
  have hlast : (cursorAt ((pos.past q).pastAll cs) after).lastChar = eofChar := by
    cases after with
    | nil => rfl
    | cons c after => exact hafter c rfl
  rw [quotedString, collect_behind hend hcs hstop]
  simp [hlast, (quoteChar_ne_eofChar hq).symm]

/-- A piece that is a token is read as that token. -/
theorem gettokWithin_token {p : Piece} {after : List Char} {type : TokenType} {content : String}
    (hvalid : p.Valid) (hstops : p.Stops after) (htoken : p.token? = some (type, content)) (n : ℕ) :
    gettokWithin (n + 1) (cursorAt pos (p.text ++ after)) =
      (⟨type, pos.past p.head, content⟩, cursorAt (pos.pastAll p.text) after) := by
  cases p with
  | blank c => cases htoken
  | comment cs => cases htoken
  | quoted q cs =>
    obtain ⟨rfl, rfl⟩ := Prod.mk.inj (Option.some.inj htoken)
    obtain ⟨hq, hcs⟩ := hvalid
    have hspace : isSpace q = false := by rcases hq with rfl | rfl <;> decide
    rw [Piece.text, Piece.head, Piece.tail, List.cons_append, gettokWithin,
      collect_isSpace_cursorAt hspace]
    simp only [lastChar_cursorAt_cons, position_cursorAt_cons]
    exact (if_pos hq).trans (quotedString_closed hcs)
  | unclosed q cs =>
    obtain ⟨rfl, rfl⟩ := Prod.mk.inj (Option.some.inj htoken)
    obtain ⟨hq, hcs⟩ := hvalid
    have hspace : isSpace q = false := by rcases hq with rfl | rfl <;> decide
    rw [Piece.text, Piece.head, Piece.tail, List.cons_append, gettokWithin,
      collect_isSpace_cursorAt hspace]
    simp only [lastChar_cursorAt_cons, position_cursorAt_cons]
    exact (if_pos hq).trans (quotedString_unclosed hq hcs hstops)
  | word c cs =>
    obtain ⟨rfl, rfl⟩ := Prod.mk.inj (Option.some.inj htoken)
    obtain ⟨hc, hcs⟩ := hvalid
    rw [Piece.text, Piece.head, Piece.tail, List.cons_append, gettokWithin,
      collect_isSpace_cursorAt (not_isSpace (.inl hc))]
    simp only [lastChar_cursorAt_cons, position_cursorAt_cons, if_neg (not_quote (.inl hc)),
      if_pos hc, collect_behind (p := isWordChar) (by decide) hcs hstops, Position.pastAll_cons]
  | number c cs =>
    obtain ⟨rfl, rfl⟩ := Prod.mk.inj (Option.some.inj htoken)
    obtain ⟨hc, hcs⟩ := hvalid
    rw [Piece.text, Piece.head, Piece.tail, List.cons_append, gettokWithin,
      collect_isSpace_cursorAt (not_isSpace (.inr hc))]
    simp only [lastChar_cursorAt_cons, position_cursorAt_cons, if_neg (not_quote (.inr hc)),
      not_isAlpha hc, if_pos hc, collect_behind (p := Char.isDigit) (by decide) hcs hstops,
      Position.pastAll_cons, Bool.false_eq_true, if_false]
  | mark c =>
    obtain ⟨rfl, rfl⟩ := Prod.mk.inj (Option.some.inj htoken)
    simp only [Piece.Valid, Piece.isMark, Bool.and_eq_true, Bool.not_eq_true',
      decide_eq_true_eq] at hvalid
    obtain ⟨⟨⟨⟨⟨⟨hspace, hdouble⟩, hsingle⟩, halpha⟩, hdigit⟩, hhash⟩, hend⟩ := hvalid
    rw [Piece.text, Piece.head, Piece.tail, List.cons_append, List.nil_append, gettokWithin,
      collect_isSpace_cursorAt hspace]
    simp [hdouble, hsingle, halpha, hdigit, hhash, hend, mygetchar_cursorAt]

/-- What is read only depends on the place behind the blanks. -/
theorem gettokWithin_congr {c d : Cursor} (h : (c.collect isSpace).2 = (d.collect isSpace).2)
    (n : ℕ) : gettokWithin (n + 1) c = gettokWithin (n + 1) d := by
  rw [gettokWithin, gettokWithin, h]

theorem gettokWithin_blank {c : Char} {after : List Char} (hc : isSpace c = true) (n : ℕ) :
    gettokWithin (n + 1) (cursorAt pos (c :: after)) =
      gettokWithin (n + 1) (cursorAt (pos.past c) after) := by
  refine gettokWithin_congr ?_ n
  rw [collect_cursorAt (by decide), collect_cursorAt (by decide)]
  simp [hc]

theorem gettokWithin_comment {cs after : List Char} (hcs : ∀ c ∈ cs, inComment c = true)
    (hafter : ∀ c ∈ after.head?, inComment c = false) (n : ℕ) :
    gettokWithin (n + 1) (cursorAt pos ('#' :: (cs ++ after))) =
      gettokWithin n (cursorAt (pos.pastAll ('#' :: cs)) after) := by
  rw [gettokWithin, collect_isSpace_cursorAt (by decide)]
  simp only [lastChar_cursorAt_cons, collect_behind (p := inComment) (by decide) hcs hafter,
    Position.pastAll_cons]
  rfl

theorem gettokWithin_end (hend : ∀ c ∈ rest.head?, c = eofChar) (n : ℕ) :
    gettokWithin (n + 1) (cursorAt pos rest) =
      (⟨.eof, pos.past eofChar, ""⟩, cursorAt pos rest) := by
  have hcollect : (cursorAt pos rest).collect isSpace = ([], cursorAt pos rest) := by
    rw [collect_cursorAt (by decide)]
    cases rest with
    | nil => rfl
    | cons c rest => cases hend c rfl; rfl
  have hlast : (cursorAt pos rest).lastChar = eofChar := by
    cases rest with
    | nil => rfl
    | cons c rest => exact hend c rfl
  have hposition : (cursorAt pos rest).position = pos.past eofChar := by
    cases rest with
    | nil => rfl
    | cons c rest => cases hend c rfl; rfl
  rw [gettokWithin, hcollect]
  simp only [hlast, hposition]
  rfl

/-- The next token, from a place in front of some pieces. -/
theorem gettokWithin_pieces (h : Lexed ps rest) {n : ℕ} (hn : (texts ps).length < n) :
    gettokWithin n (cursorAt pos (texts ps ++ rest)) =
      ((nextOf pos ps).1,
        cursorAt (nextOf pos ps).2.1 (texts (nextOf pos ps).2.2 ++ rest)) := by
  induction h generalizing pos n with
  | done hend =>
    obtain ⟨n, rfl⟩ := Nat.exists_eq_succ_of_ne_zero (Nat.ne_of_gt hn)
    exact gettokWithin_end hend n
  | @cons p ps rest valid stops behind ih =>
    obtain ⟨n, rfl⟩ := Nat.exists_eq_succ_of_ne_zero (Nat.ne_zero_of_lt hn)
    rw [texts_cons, List.length_append] at hn
    rw [texts_cons, List.append_assoc]
    cases htoken : p.token? with
    | some token =>
      rw [gettokWithin_token valid stops htoken, nextOf, htoken]
    | none =>
      rw [nextOf, htoken]
      cases p with
      | blank c =>
        rw [Piece.text, Piece.head, Piece.tail, List.singleton_append, gettokWithin_blank valid]
        exact ih (Nat.lt_of_le_of_lt (Nat.le_add_left _ _) hn)
      | comment cs =>
        rw [Piece.text, Piece.head, Piece.tail, List.cons_append, gettokWithin_comment valid stops]
        rw [Piece.text, List.length_cons] at hn
        exact ih (by omega)
      | quoted | unclosed | word | number | mark => cases htoken

theorem gettok_pieces (h : Lexed ps rest) :
    gettok (cursorAt pos (texts ps ++ rest)) =
      ((nextOf pos ps).1,
        cursorAt (nextOf pos ps).2.1 (texts (nextOf pos ps).2.2 ++ rest)) := by
  refine gettokWithin_pieces h ?_
  rw [length_input_cursorAt, List.length_append]
  omega

/-- What is left behind the next token is in pieces, too. -/
theorem Lexed.behind_next (h : Lexed ps rest) (pos : Position) :
    Lexed (nextOf pos ps).2.2 rest := by
  induction h generalizing pos with
  | done hend => exact .done hend
  | @cons p ps rest valid stops behind ih =>
    rw [nextOf]
    split
    · exact behind
    · exact ih _

end Lexing

/-- The lexer in front of some pieces, whose first token it has read already. -/
def lexerAt (pos : Position) (ps : List Piece) (rest : List Char) : Lexer :=
  ⟨cursorAt (nextOf pos ps).2.1 (texts (nextOf pos ps).2.2 ++ rest), (nextOf pos ps).1⟩

section Lexers

variable {pos : Position} {ps : List Piece} {rest : List Char}

theorem get_lexerAt (h : Lexed ps rest) : (lexerAt pos ps rest).get =
    ((nextOf pos ps).1, lexerAt (nextOf pos ps).2.1 (nextOf pos ps).2.2 rest) := by
  rw [Lexer.get]
  simp only [lexerAt, gettok_pieces (h.behind_next pos)]

theorem create_eq (h : Lexed ps rest) :
    Lexer.create (texts ps ++ rest) = lexerAt ⟨1, 0⟩ ps rest := by
  have hgettok : gettok { input := texts ps ++ rest, position := ⟨1, 0⟩, lastChar := ' ' } =
      gettokWithin ((texts ps ++ rest).length + 2) (cursorAt ⟨1, 0⟩ (texts ps ++ rest)) := by
    refine gettokWithin_congr ?_ _
    have hblank : isSpace ' ' = true := by decide
    rw [Cursor.collect, Cursor.collectWithin, if_pos hblank, collect_cursorAt (by decide)]
    exact congrArg (fun r => r.2)
      (collectWithin_cursorAt (p := isSpace) (by decide) (Nat.lt_succ_self _))
  rw [Lexer.create, Lexer.get]
  simp only [hgettok]
  rw [gettokWithin_pieces h (by rw [List.length_append]; omega)]
  rfl

theorem tokenType_ne_eof {p : Piece} {type : TokenType} {content : String}
    (h : p.token? = some (type, content)) : type ≠ .eof := by
  cases p with
  | blank | comment => cases h
  | quoted | unclosed | word | number | mark =>
    obtain ⟨rfl, rfl⟩ := Prod.mk.inj (Option.some.inj h)
    exact TokenType.noConfusion

/-- The tokens of the pieces, one after the other. -/
theorem tokensAt_eq (pos : Position) (ps : List Piece) :
    tokensAt pos ps =
      if (nextOf pos ps).1.type = .eof then [(nextOf pos ps).1]
      else (nextOf pos ps).1 :: tokensAt (nextOf pos ps).2.1 (nextOf pos ps).2.2 := by
  induction ps generalizing pos with
  | nil => rfl
  | cons p ps ih =>
    cases htoken : p.token? with
    | some token => simp [tokensAt, nextOf, htoken, tokenType_ne_eof htoken]
    | none =>
      simp only [tokensAt, nextOf, htoken]
      exact ih _

theorem nextOf_eof {pos : Position} {ps : List Piece} (h : (nextOf pos ps).1.type = .eof) :
    (nextOf pos ps).2.2 = [] ∧
      (nextOf (nextOf pos ps).2.1 []).1 = (nextOf pos ps).1 := by
  induction ps generalizing pos with
  | nil => exact ⟨rfl, rfl⟩
  | cons p ps ih =>
    rw [nextOf] at h ⊢
    cases htoken : p.token? with
    | some token =>
      rw [htoken] at h
      exact absurd h (tokenType_ne_eof htoken)
    | none =>
      rw [htoken] at h
      exact ih h

/-- At the end of the input, all pieces are read. -/
theorem unread_lexerAt (h : (nextOf pos ps).1.type = .eof) :
    (lexerAt pos ps rest).unread = rest := by
  rw [lexerAt, (nextOf_eof h).1]
  exact unread_cursorAt _

theorem length_nextOf_lt {pos : Position} {ps : List Piece} (h : (nextOf pos ps).1.type ≠ .eof) :
    (nextOf pos ps).2.2.length < ps.length := by
  induction ps generalizing pos with
  | nil => exact absurd rfl h
  | cons p ps ih =>
    rw [nextOf] at h ⊢
    cases htoken : p.token? with
    | some token => exact Nat.lt_succ_self _
    | none =>
      rw [htoken] at h
      exact (ih h).trans (Nat.lt_succ_self _)

/-- The lexer hands out the tokens of the pieces and stays in front of the rest. -/
theorem tokensWithin_lexerAt (h : Lexed ps rest) {n : ℕ} (hn : ps.length < n) :
    ∃ pos', Lexer.tokensWithin n (lexerAt pos ps rest) =
      (tokensAt pos ps, lexerAt pos' [] rest) := by
  induction n generalizing pos ps with
  | zero => cases hn
  | succ n ih =>
    rw [Lexer.tokensWithin, tokensAt_eq]
    by_cases hend : (nextOf pos ps).1.type = .eof
    · refine ⟨(nextOf pos ps).2.1, ?_⟩
      have hnext : (lexerAt pos ps rest).nextToken = (nextOf pos ps).1 := rfl
      obtain ⟨hnil, htoken⟩ := nextOf_eof hend
      rw [hnext, if_pos hend, if_pos hend, lexerAt, lexerAt, hnil, htoken]
      rfl
    · have hlt := length_nextOf_lt hend
      obtain ⟨pos', hrest⟩ := @ih (nextOf pos ps).2.1 _ (h.behind_next pos) (by omega)
      have hnext : (lexerAt pos ps rest).nextToken = (nextOf pos ps).1 := rfl
      refine ⟨pos', ?_⟩
      rw [hnext, if_neg hend, if_neg hend, get_lexerAt h]
      simp only [hrest]

end Lexers

/-- No character of a piece is taken for the end of the input. -/
theorem eofChar_notMem_text {p : Piece} (h : p.Valid) : eofChar ∉ p.text := by
  have hloop : ∀ {q : Char → Bool} {cs : List Char}, q eofChar = false →
      (∀ c ∈ cs, q c = true) → eofChar ∉ cs := by
    intro q cs hend hcs hmem
    exact absurd (hcs _ hmem) (by simp [hend])
  have hquotes : ∀ q, inQuotes q eofChar = false := fun q => by simp [inQuotes]
  rw [Piece.text, List.mem_cons, not_or]
  cases p with
  | blank c =>
    have hend : ¬ (Piece.blank eofChar).Valid := by simp [Piece.Valid, isSpace, eofChar]
    exact ⟨fun hc => hend (hc.symm ▸ h), List.not_mem_nil⟩
  | comment cs =>
    exact ⟨fun hc => absurd hc (by decide : eofChar ≠ '#'), hloop (q := inComment) (by decide) h⟩
  | quoted q cs =>
    obtain ⟨hq, hcs⟩ := h
    refine ⟨(quoteChar_ne_eofChar hq).symm, ?_⟩
    simp only [Piece.tail, List.mem_append, List.mem_singleton, not_or]
    exact ⟨hloop (hquotes q) hcs, (quoteChar_ne_eofChar hq).symm⟩
  | unclosed q cs =>
    obtain ⟨hq, hcs⟩ := h
    exact ⟨(quoteChar_ne_eofChar hq).symm, hloop (hquotes q) hcs⟩
  | word c cs =>
    obtain ⟨hc, hcs⟩ := h
    have hend : ¬ eofChar.isAlpha = true := by decide
    exact ⟨fun h => hend (h.symm ▸ hc), hloop (q := isWordChar) (by decide) hcs⟩
  | number c cs =>
    obtain ⟨hc, hcs⟩ := h
    have hend : ¬ eofChar.isDigit = true := by decide
    exact ⟨fun h => hend (h.symm ▸ hc), hloop (q := Char.isDigit) (by decide) hcs⟩
  | mark c =>
    have hend : ¬ (Piece.mark eofChar).Valid := by simp [Piece.Valid, Piece.isMark]
    exact ⟨fun hc => hend (hc.symm ▸ h), List.not_mem_nil⟩

theorem Lexed.eofChar_notMem {ps : List Piece} {rest : List Char} (h : Lexed ps rest) :
    eofChar ∉ texts ps := by
  induction h with
  | done => exact List.not_mem_nil
  | cons valid stops behind ih =>
    rw [texts_cons, List.mem_append]
    rintro (hmem | hmem)
    · exact eofChar_notMem_text valid hmem
    · exact ih hmem

/-- What is left is empty, or starts with what is taken for the end. -/
theorem Lexed.rest_head {ps : List Piece} {rest : List Char} (h : Lexed ps rest) :
    ∀ c ∈ rest.head?, c = eofChar := by
  induction h with
  | done hend => exact hend
  | cons valid stops behind ih => exact ih

/-- What a loop leaves starts with a character for which its condition fails. -/
theorem stops_dropWhile (q : Char → Bool) (cs : List Char) :
    ∀ c ∈ (cs.dropWhile q).head?, q c = false := by
  intro c hc
  have hnot := List.head?_dropWhile_not q cs
  rw [Option.mem_def.mp hc] at hnot
  exact hnot

/-- A text that is not at its end begins with a piece. -/
theorem exists_piece {c : Char} (hc : c ≠ eofChar) (cs : List Char) :
    ∃ p after, Piece.Valid p ∧ p.Stops after ∧ p.text ++ after = c :: cs := by
  have htake : ∀ q : Char → Bool, ∀ d ∈ cs.takeWhile q, q d = true :=
    fun q d hd => List.mem_takeWhile_imp hd
  have hsplit : ∀ q : Char → Bool, c :: cs.takeWhile q ++ cs.dropWhile q = c :: cs :=
    fun q => congrArg (c :: ·) List.takeWhile_append_dropWhile
  by_cases hspace : isSpace c = true
  · exact ⟨.blank c, cs, hspace, trivial, rfl⟩
  by_cases hquote : c = '"' ∨ c = '\''
  · have hstop := stops_dropWhile (inQuotes c) cs
    cases hafter : cs.dropWhile (inQuotes c) with
    | nil =>
      refine ⟨.unclosed c _, [], ⟨hquote, htake (inQuotes c)⟩, by simp [Piece.Stops], ?_⟩
      exact hafter ▸ hsplit (inQuotes c)
    | cons d after =>
      have hd : d = eofChar ∨ d = c := by
        have := hstop d (by rw [hafter]; rfl)
        simp only [inQuotes, Bool.and_eq_false_iff, decide_eq_false_iff_not, not_not] at this
        exact this
      rcases hd with rfl | rfl
      · refine ⟨.unclosed c _, _, ⟨hquote, htake (inQuotes c)⟩, ?_,
          hafter ▸ hsplit (inQuotes c)⟩
        intro e he
        exact (Option.some.inj he).symm
      · refine ⟨.quoted d _, after, ⟨hquote, htake (inQuotes d)⟩, trivial, ?_⟩
        have h := hafter ▸ hsplit (inQuotes d)
        rw [← h]
        simp [Piece.text, Piece.head, Piece.tail]
  by_cases halpha : c.isAlpha = true
  · exact ⟨.word c _, _, ⟨halpha, htake isWordChar⟩, stops_dropWhile _ _, hsplit _⟩
  by_cases hdigit : c.isDigit = true
  · exact ⟨.number c _, _, ⟨hdigit, htake Char.isDigit⟩, stops_dropWhile _ _, hsplit _⟩
  by_cases hhash : c = '#'
  · subst hhash
    exact ⟨.comment _, _, htake inComment, stops_dropWhile _ _, hsplit _⟩
  · refine ⟨.mark c, cs, ?_, trivial, rfl⟩
    rw [not_or] at hquote
    simp [Piece.Valid, Piece.isMark, hspace, hquote, halpha, hdigit, hhash, hc]

theorem length_le_texts (ps : List Piece) : ps.length ≤ (texts ps).length := by
  induction ps with
  | nil => exact Nat.le_refl _
  | cons p ps ih =>
    rw [texts_cons, List.length_append, List.length_cons, Piece.text, List.length_cons]
    omega

/-- Every text is cut into pieces. -/
theorem exists_lexed (text : List Char) : ∃ ps rest, Lexed ps rest ∧ texts ps ++ rest = text := by
  induction hn : text.length using Nat.strong_induction_on generalizing text with
  | _ n ih =>
    cases text with
    | nil => exact ⟨[], [], .done (by simp), rfl⟩
    | cons c cs =>
      by_cases hc : c = eofChar
      · exact ⟨[], c :: cs, .done (by simp [hc]), rfl⟩
      obtain ⟨p, after, hvalid, hstops, hp⟩ := exists_piece hc cs
      have hlt : after.length < n := by
        rw [← hn, ← hp, Piece.text, List.cons_append, List.length_cons, List.length_append]
        omega
      obtain ⟨ps, rest, hlexed, rfl⟩ := ih _ hlt after rfl
      exact ⟨p :: ps, rest, .cons hvalid hstops hlexed, by rw [texts_cons, List.append_assoc, hp]⟩

end Ctguard
