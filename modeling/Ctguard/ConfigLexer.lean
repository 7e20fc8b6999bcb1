import Ctguard.InterventionDaemon

/-!
# The lexer of the configurations

A configuration is read one character at a time, each of them a byte. The last character that was
read is looked at before it becomes part of a token. Where the input ends, the stream returns a
value that is cast to a character, and so becomes the last of the 256.
-/

namespace Ctguard

/-- `EOF`, as a `char`. -/
def eofChar : Char := '\xff'

namespace Position

def charAdvance (p : Position) : Position := { p with lineIndent := p.lineIndent + 1 }

def lineBreak (p : Position) : Position := ⟨p.lineNumber + 1, 0⟩

/-- What reading a character does to the position. -/
def past (p : Position) (c : Char) : Position :=
  if c = '\n' then p.lineBreak else if c = '\r' then p else p.charAdvance

/-- `operator<`. -/
def less (p q : Position) : Bool :=
  if p.lineNumber = q.lineNumber then p.lineIndent < q.lineIndent
  else p.lineNumber < q.lineNumber

end Position

/-- `token::type_t`. -/
inductive TokenType where
  | eof
  | string
  | identifier
  | integer
  | unknown
  deriving DecidableEq, Repr

structure Token where
  type : TokenType
  position : Position
  content : String
  deriving DecidableEq, Repr

/-- `operator==(char)`: the first character is compared, and the one behind it with zero, which
is also what stands behind the content. -/
def Token.isChar (t : Token) (c : Char) : Bool :=
  match t.content.toList with
  | [] => false
  | [x] => x = c
  | x :: y :: _ => x = c ∧ y = '\x00'

/-- The stream, and the last character that was taken from it. -/
structure Cursor where
  input : List Char
  atEnd : Bool := false
  position : Position
  lastChar : Char
  deriving DecidableEq, Repr

namespace Cursor

/-- `m_last_char = mygetchar()`. -/
def mygetchar (c : Cursor) : Cursor :=
  match c.input with
  | [] => { c with atEnd := true, position := c.position.past eofChar, lastChar := eofChar }
  | x :: rest => { c with input := rest, position := c.position.past x, lastChar := x }

/-- The characters that are read while a condition holds of the last one. -/
def collectWithin (p : Char → Bool) : ℕ → Cursor → List Char × Cursor
  | 0, c => ([], c)
  | n + 1, c =>
    if p c.lastChar then
      let (cs, c') := collectWithin p n c.mygetchar
      (c.lastChar :: cs, c')
    else ([], c)

/-- A loop that ends where the input does. -/
def collect (p : Char → Bool) (c : Cursor) : List Char × Cursor :=
  collectWithin p (c.input.length + 2) c

end Cursor

def isWordChar (c : Char) : Bool := c.isAlphanum || c = '_' || c = '.'

/-- The end of a line or of the input ends a comment. -/
def inComment (c : Char) : Bool := c ≠ eofChar && c ≠ '\n' && c ≠ '\r'

/-- What a quoted string may contain. -/
def inQuotes (q c : Char) : Bool := c ≠ eofChar && c ≠ q

/-- A string behind its first quote. -/
def quotedString (q : Char) (start : Position) (c : Cursor) : Token × Cursor :=
  let (content, c) := c.mygetchar.collect (inQuotes q)
  if c.lastChar = q then (⟨.string, start, String.ofList content⟩, c.mygetchar)
  else (⟨.unknown, start, String.ofList content⟩, c)

/-- `gettok`, which calls itself behind a comment. -/
def gettokWithin : ℕ → Cursor → Token × Cursor
  | 0, c => (⟨.eof, c.position, ""⟩, c)
  | n + 1, c =>
    let c := (c.collect isSpace).2
    let start := c.position
    if c.lastChar = '"' ∨ c.lastChar = '\'' then quotedString c.lastChar start c
    else if c.lastChar.isAlpha then
      let (content, c') := c.mygetchar.collect isWordChar
      (⟨.identifier, start, String.ofList (c.lastChar :: content)⟩, c')
    else if c.lastChar.isDigit then
      let (content, c') := c.mygetchar.collect Char.isDigit
      (⟨.integer, start, String.ofList (c.lastChar :: content)⟩, c')
    else if c.lastChar = '#' then gettokWithin n (c.mygetchar.collect inComment).2
    else if c.lastChar = eofChar then (⟨.eof, start, ""⟩, c)
    else (⟨.unknown, start, String.ofList [c.lastChar]⟩, c.mygetchar)

def gettok (c : Cursor) : Token × Cursor := gettokWithin (c.input.length + 2) c

/-- The lexer has always read one token ahead. What it keeps as the previous position is the
position of that token. -/
structure Lexer where
  cursor : Cursor
  nextToken : Token
  deriving DecidableEq, Repr

namespace Lexer

def get (l : Lexer) : Token × Lexer :=
  let (t, c) := gettok l.cursor
  (l.nextToken, ⟨c, t⟩)

/-- The constructor, which gets a first token that is none. -/
def create (text : List Char) : Lexer :=
  let position : Position := ⟨1, 0⟩
  (get ⟨{ input := text, position := position, lastChar := ' ' }, ⟨.unknown, position, " "⟩⟩).2

/-- The characters that are part of no token and no blank so far. -/
def unread (l : Lexer) : List Char :=
  if l.cursor.atEnd then [] else l.cursor.lastChar :: l.cursor.input

/-- All tokens up to the end of the input, and the lexer there. -/
def tokensWithin : ℕ → Lexer → List Token × Lexer
  | 0, l => ([l.nextToken], l)
  | n + 1, l =>
    if l.nextToken.type = .eof then ([l.nextToken], l)
    else
      let (t, l) := l.get
      let (ts, l) := tokensWithin n l
      (t :: ts, l)

end Lexer

/-- The tokens of a text, as the lexer hands them out. -/
def tokensOf (text : List Char) : List Token :=
  (Lexer.tokensWithin (text.length + 1) (Lexer.create text)).1

end Ctguard
