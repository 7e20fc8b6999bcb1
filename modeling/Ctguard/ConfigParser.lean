import Ctguard.ConfigPieces

/-!
# The parser of the configurations

A group is read entry by entry: an option, a group without braces or a group with them. The parser
sees the text through the tokens of the lexer alone, so it is written for anything that hands out
tokens. The groups inside of a group are a set that is ordered by their positions.
-/

namespace Ctguard

/-- `peek`, and what `get` leaves. -/
class TokenSource (σ : Type) where
  nextToken : σ → Token
  advance : σ → σ

export TokenSource (nextToken advance)

instance : TokenSource Lexer := ⟨Lexer.nextToken, fun l => l.get.2⟩

/-- A list of tokens stays at its last one, as the lexer does at the end of the input. -/
instance : TokenSource (List Token) where
  nextToken ts := ts.headD ⟨.eof, ⟨0, 0⟩, ""⟩
  advance
    | [] => []
    | [t] => [t]
    | _ :: t :: ts => t :: ts

namespace Token

/-- What a name or a keyword can be. -/
def isName (t : Token) : Bool := t.type = .string || t.type = .identifier

def isValue (t : Token) : Bool := t.isName || t.type = .integer

end Token

/-- Why the parser throws. -/
inductive ParseFault where
  | keyDefined (key : String) (pos : Position)
  | groupNotInserted (name : String)
  | openingExpected (content : String)
  | subgroupDefined (keyword : String) (pos : Position)
  | equalsExpected (content : String)
  | valueExpected (content : String)
  | optionNotInserted (name : String)
  | notClosed (name : String)
  | unknownToken (content : String)
  deriving DecidableEq, Repr

def ParseFault.message : ParseFault → String
  | keyDefined key pos => "key '" ++ key ++ "' already defined at " ++ pos.text
  | groupNotInserted name => "can not insert configgroup '" ++ name ++ "'"
  | openingExpected content => "expected '\x7b' instead of '" ++ content ++ "'"
  | subgroupDefined keyword pos => "subgroup " ++ keyword ++ " already defined at " ++ pos.text
  | equalsExpected content => "expected '=' instead of '" ++ content ++ "'"
  | valueExpected content => "expected a value instead of '" ++ content ++ "'"
  | optionNotInserted name => "can not insert configoption '" ++ name ++ "'"
  | notClosed name => "config group '" ++ name ++ "' not closed"
  | unknownToken content => "unknown token '" ++ content ++ "'"

structure ParseException where
  position : Position
  fault : ParseFault
  deriving DecidableEq, Repr

def ParseException.what (e : ParseException) : String :=
  e.position.text ++ ": " ++ e.fault.message

namespace ConfigGroup

/-- A group in which nothing is written yet. -/
def empty (name keyword : String) (pos : Position) : ConfigGroup := ⟨⟨name, keyword, pos, []⟩, []⟩

/-- `std::set::emplace`: nothing is inserted at the position of a group that is there. -/
def insertAt (g : ConfigGroup) : List ConfigGroup → Option (List ConfigGroup)
  | [] => some [g]
  | h :: hs =>
    if g.root.pos.less h.root.pos then some (g :: h :: hs)
    else if h.root.pos.less g.root.pos then (insertAt g hs).map (h :: ·)
    else none

def option? (cg : ConfigGroup) (key : String) : Option ConfigOption :=
  cg.root.options.find? (·.key = key)

def subgroup? (cg : ConfigGroup) (keyword : String) : Option ConfigGroup :=
  cg.children.find? (·.root.keyword = keyword)

def emplaceGroup (cg g : ConfigGroup) (position : Position) :
    Except ParseException ConfigGroup :=
  match insertAt g cg.children with
  | some children => .ok ⟨cg.root, children⟩
  | none => .error ⟨position, .groupNotInserted g.root.name⟩

def emplaceOption (cg : ConfigGroup) (o : ConfigOption) : Except ParseException ConfigGroup :=
  match cg.option? o.key with
  | some _ => .error ⟨o.pos, .optionNotInserted o.key⟩
  | none => .ok ⟨{ cg.root with options := cg.root.options ++ [o] }, cg.children⟩

end ConfigGroup

/-- What one turn of the loop of `parse_group` reads, with the position of an exception. -/
inductive Production where
  | opening (name keyword : String) (pos brace : Position)
  | plain (name keyword : String) (pos position : Position)
  | option (o : ConfigOption)
  | closing
  deriving DecidableEq, Repr

section Parsing

variable {σ : Type} [TokenSource σ]

/-- The values that stand behind the first one on its line. -/
def moreValues (line : UInt32) : ℕ → σ → List String × σ
  | 0, s => ([], s)
  | n + 1, s =>
    if (nextToken s).isValue ∧ (nextToken s).position.lineNumber = line then
      let (options, s') := moreValues line n (advance s)
      ((nextToken s).content :: options, s')
    else ([], s)

/-- Behind the name and the keyword of a group. -/
def behindKeyword (cg : ConfigGroup) (name keyword : Token) (s : σ) :
    Except ParseException (Production × σ) :=
  if (nextToken s).isChar '{' then
    let t := nextToken s
    let s := advance s
    if ¬ t.isChar '{' then .error ⟨t.position, .openingExpected t.content⟩
    else
      match cg.subgroup? keyword.content with
      | some sg => .error ⟨t.position, .subgroupDefined keyword.content sg.root.pos⟩
      | none => .ok (.opening name.content keyword.content name.position t.position, s)
  else .ok (.plain name.content keyword.content name.position keyword.position, s)

/-- Behind a name. -/
def behindName (cg : ConfigGroup) (name : Token) (n : ℕ) (s : σ) :
    Except ParseException (Production × σ) :=
  let t := nextToken s
  let s := advance s
  if t.isChar '{' then .ok (.opening name.content "" name.position t.position, s)
  else if t.isName then behindKeyword cg name t s
  else if t.content ≠ "=" then .error ⟨t.position, .equalsExpected t.content⟩
  else
    let t := nextToken s
    let s := advance s
    if ¬ t.isValue then .error ⟨t.position, .valueExpected t.content⟩
    else
      let (options, s) := moreValues t.position.lineNumber n s
      .ok (.option ⟨name.content, t.content :: options, name.position⟩, s)

/-- One turn of the loop of `parse_group`. -/
def production (needClose : Bool) (cg : ConfigGroup) (n : ℕ) (s : σ) :
    Except ParseException (Production × σ) :=
  let t := nextToken s
  let s := advance s
  if t.isName then
    match cg.option? t.content with
    | some o => .error ⟨t.position, .keyDefined t.content o.pos⟩
    | none => behindName cg t n s
  else if needClose ∧ t.isChar '}' then .ok (.closing, s)
  else if t.type = .eof then
    if needClose then .error ⟨t.position, .notClosed cg.root.name⟩ else .ok (.closing, s)
  else .error ⟨t.position, .unknownToken t.content⟩

/-- What follows a step that may throw. -/
def orThrow {α β : Type} (r : Except ParseException α)
    (next : α → Option (Except ParseException β)) : Option (Except ParseException β) :=
  match r with
  | .error e => some (.error e)
  | .ok a => next a

def parseGroup : ℕ → Bool → ConfigGroup → σ → Option (Except ParseException (ConfigGroup × σ))
  | 0, _, _, _ => none
  | n + 1, needClose, cg, s =>
    orThrow (production needClose cg n s) fun
      | (.closing, s) => some (.ok (cg, s))
      | (.option o, s) => orThrow (cg.emplaceOption o) fun cg => parseGroup n needClose cg s
      | (.plain name keyword pos position, s) =>
        orThrow (cg.emplaceGroup (.empty name keyword pos) position) fun cg =>
          parseGroup n needClose cg s
      | (.opening name keyword pos brace, s) =>
        (parseGroup n true (.empty name keyword pos) s).bind fun r =>
          orThrow r fun (g, s) =>
            orThrow (cg.emplaceGroup g brace) fun cg => parseGroup n needClose cg s

end Parsing

/-- The group that `parse_group` starts with. -/
def globalGroup : ConfigGroup := .empty "global" "" ⟨1, 0⟩

/-- `parse`, with the lexer behind it. There are no more tokens than characters, apart from the
end of the input. -/
def parseConfig (text : List Char) : Option (Except ParseException (ConfigGroup × Lexer)) :=
  parseGroup (text.length + 1) false globalGroup (Lexer.create text)

end Ctguard
