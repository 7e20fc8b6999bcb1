import Ctguard.XMLReader

/-!
# The parser of rule files

`XMLparser::parse` is a machine that reads one character after the other. The local
variables of a call are a frame, and the calls that wait for a child are a stack of frames.
In a state, a loop may read on before the state is left. What a character does does not
depend on the stream but for the next character, which some states look at. An accepted
document is therefore a sequence of moves over the text alone.
-/

namespace Ctguard.XML

/-- `std::isprint` in the C locale. -/
def isPrint (c : Char) : Bool := 0x20 ≤ c.toNat ∧ c.toNat ≤ 0x7e

def isNameChar (c : Char) : Bool := c.isAlphanum ∨ c = '_'

inductive ParseState where
  | initial
  | openTagKey
  | openTagAttr
  | body
  | closeTag
  | attrKey
  | attrValue
  deriving DecidableEq

/-- The local variables of one call of `parse`, and whether the next character is read by the
loop inside of the state. -/
structure Frame where
  name : String := ""
  value : String := ""
  closeName : String := ""
  attrKey : String := ""
  attrValue : String := ""
  attributes : List (String × String) := []
  children : List XMLNode := []
  state : ParseState := .initial
  inLoop : Bool := false

def Frame.node (f : Frame) : XMLNode :=
  { name := f.name, attributes := f.attributes, value := f.value, children := f.children }

/-- What is done with a character. -/
inductive Action where
  | stay (f : Frame)
  | goto (f : Frame)
  | consume (f : Frame)
  | unget (f : Frame)
  | enter (f : Frame)
  | finish (node : XMLNode)
  | consumeFinish (node : XMLNode)
  | fail (message : String)

def unknownCharacter (number : String) (c : Char) : String :=
  "Unknown character (" ++ number ++ ") '" ++ c.toString ++ "'"

section States

variable (f : Frame) (escaped : Bool) (c : Char) (next : Option Char)

def initial : Action :=
  if isSpace c then .stay f
  else if escaped = false ∧ c = '<' then .goto { f with state := .openTagKey }
  else .fail (unknownCharacter "1" c)

def openTagKey : Action :=
  if isNameChar c then .stay { f with name := f.name.push c }
  else .unget { f with state := .openTagAttr }

def body : Action :=
  if (escaped = true ∨ c ≠ '<') ∧ (isPrint c ∨ c = '\t') then
    .stay (if c ≠ '\t' then { f with value := f.value.push c } else f)
  else if escaped = false ∧ c = '<' ∧ next = some '/' then .consume { f with state := .closeTag }
  else if escaped = false ∧ c = '<' then .enter f
  else .fail (unknownCharacter "2" c)

/-- The key is cleared when the state is entered. -/
def attrKey : Action :=
  let f := if f.inLoop then f else { f with attrKey := "" }
  if isNameChar c then .stay { f with attrKey := f.attrKey.push c }
  else if ∃ attr ∈ f.attributes, attr.1 = f.attrKey then
    .fail ("Attribute '" ++ f.attrKey ++ "' already defined")
  else if escaped = false ∧ c = '=' ∧ next = some '"' then
    .consume { f with state := .attrValue }
  else .fail (unknownCharacter "3" c ++ ", expected '='")

/-- The value is cleared when the state is entered. -/
def attrValue : Action :=
  let f := if f.inLoop then f else { f with attrValue := "" }
  if (escaped = true ∨ c ≠ '"') ∧ isPrint c then
    .stay { f with attrValue := f.attrValue.push c }
  else if escaped = false ∧ c = '"' then
    .goto { f with attributes := f.attributes ++ [(f.attrKey, f.attrValue)], state := .openTagAttr }
  else .fail (unknownCharacter "4" c)

def openTagAttr : Action :=
  if isSpace c then .stay f
  else if c.isAlphanum then .unget { f with state := .attrKey }
  else if escaped = false ∧ c = '/' ∧ next = some '>' then
    .consumeFinish { name := f.name, attributes := f.attributes }
  else if escaped = false ∧ c = '>' then .goto { f with state := .body }
  else .fail (unknownCharacter "5" c)

def closeTag : Action :=
  if isNameChar c then .stay { f with closeName := f.closeName.push c }
  else if escaped = false ∧ c = '>' then
    if f.name ≠ f.closeName then
      .fail ("Tag '" ++ f.name ++ "' not closed while closing tag '" ++ f.closeName ++ "'")
    else .finish f.node
  else .fail (unknownCharacter "6" c)

/-- The outer loop ends at a zero byte; else the character is for the state. -/
def handle : Action :=
  if f.inLoop = false ∧ c = '\x00' then
    .fail ("Unexpected end, while in tag '" ++ f.name ++ "'")
  else
    match f.state with
    | .initial => initial f escaped c
    | .openTagKey => openTagKey f c
    | .openTagAttr => openTagAttr f escaped c next
    | .body => body f escaped c next
    | .closeTag => closeTag f escaped c
    | .attrKey => attrKey f escaped c next
    | .attrValue => attrValue f escaped c

/-- Whether the state looks at the next character. -/
def looks : Bool :=
  escaped = false ∧ (f.state = .body ∧ c = '<' ∨ f.state = .attrKey ∧ c = '=' ∨
    f.state = .openTagAttr ∧ c = '/')

end States

/-- The parser over a stream of some kind: the frame of the running call, and those of the
calls it was called from. -/
structure Config (R : Type) where
  reader : R
  frame : Frame := {}
  parents : List Frame := []

/-- What comes behind a character. -/
inductive Progress (R : Type) where
  | running (cfg : Config R)
  | done (node : XMLNode) (reader : R)
  | failed (message : String) (reader : R)

section Machine

variable {R : Type} (ignore : R → R) (unget : Char → R → R)

/-- A call returns: the caller gets a child, and the outermost call gives the result. -/
def leave (node : XMLNode) (r : R) : List Frame → Progress R
  | [] => .done node r
  | f :: fs => .running ⟨r, { f with children := f.children ++ [node], inLoop := false }, fs⟩

def perform (c : Char) (r : R) (parents : List Frame) : Action → Progress R
  | .stay f => .running ⟨r, { f with inLoop := true }, parents⟩
  | .goto f => .running ⟨r, { f with inLoop := false }, parents⟩
  | .consume f => .running ⟨ignore r, { f with inLoop := false }, parents⟩
  | .unget f => .running ⟨unget c r, { f with inLoop := false }, parents⟩
  | .enter f => .running ⟨unget c r, {}, f :: parents⟩
  | .finish node => leave node r parents
  | .consumeFinish node => leave node (ignore r) parents
  | .fail message => .failed message r

end Machine

def step (cfg : Config Reader) : Except String (Progress Reader) := do
  let (c, r) ← cfg.reader.getChar
  let (next, r) := if looks cfg.frame r.escaped c then r.peek else (none, r)
  return perform Reader.ignore Reader.unget c r cfg.parents (handle cfg.frame r.escaped c next)

/-- The parser for at most the given number of characters. -/
def run : ℕ → Config Reader → Option (Except String (XMLNode × Reader))
  | 0, _ => none
  | n + 1, cfg =>
    match step cfg with
    | .error what => some (.error what)
    | .ok (.running cfg) => run n cfg
    | .ok (.done node r) => some (.ok (node, r))
    | .ok (.failed message r) => some (.error (r.parseError message))

def start (text : List Char) : Config Reader := { reader := { rest := text } }

section Actions

variable {f : Frame} {escaped : Bool} {c : Char} {next : Option Char} {node : XMLNode}

/-- How many characters may be put back from a state before one is kept. -/
def ParseState.rank : ParseState → ℕ
  | .openTagKey => 2
  | .openTagAttr => 1
  | .body => 1
  | _ => 0

/-- An element ends at a closing bracket. -/
theorem handle_finish (h : handle f escaped c next = .finish node) : c = '>' := by
  rw [handle] at h
  split_ifs at h
  cases hstate : f.state <;> simp only [hstate] at h
  case closeTag =>
    rw [closeTag] at h
    split_ifs at h with _ hclose
    exact hclose.2
  all_goals
    simp only [initial, openTagKey, openTagAttr, body, attrKey, attrValue] at h
    split_ifs at h

theorem handle_consumeFinish (h : handle f escaped c next = .consumeFinish node) :
    next = some '>' := by
  rw [handle] at h
  split_ifs at h
  cases hstate : f.state <;> simp only [hstate] at h
  case openTagAttr =>
    rw [openTagAttr] at h
    split_ifs at h with _ _ hend
    exact hend.2.2
  all_goals
    simp only [initial, openTagKey, closeTag, body, attrKey, attrValue] at h
    split_ifs at h

theorem handle_unget {f' : Frame} (h : handle f escaped c next = .unget f') :
    f'.state.rank < f.state.rank := by
  rw [handle] at h
  split_ifs at h
  cases hstate : f.state <;> simp only [hstate] at h
  case openTagKey =>
    rw [openTagKey] at h
    split_ifs at h
    cases h
    simp [ParseState.rank]
  case openTagAttr =>
    rw [openTagAttr] at h
    split_ifs at h
    cases h
    simp [ParseState.rank]
  all_goals
    simp only [initial, closeTag, body, attrKey, attrValue] at h
    split_ifs at h

theorem handle_enter {f' : Frame} (h : handle f escaped c next = .enter f') :
    f.state = .body ∧ c = '<' := by
  rw [handle] at h
  split_ifs at h
  cases hstate : f.state <;> simp only [hstate] at h
  case body =>
    rw [body] at h
    split_ifs at h with _ _ hopen
    exact ⟨rfl, hopen.2⟩
  all_goals
    simp only [initial, openTagKey, openTagAttr, closeTag, attrKey, attrValue] at h
    split_ifs at h

end Actions

section Progress

variable {R S : Type}

def Progress.reader : Progress R → R
  | .running cfg => cfg.reader
  | .done _ r => r
  | .failed _ r => r

def Config.map (g : R → S) (cfg : Config R) : Config S := ⟨g cfg.reader, cfg.frame, cfg.parents⟩

def Progress.map (g : R → S) : Progress R → Progress S
  | .running cfg => .running (cfg.map g)
  | .done node r => .done node (g r)
  | .failed message r => .failed message (g r)

theorem leave_map (g : R → S) (node : XMLNode) (r : R) (parents : List Frame) :
    (leave node r parents).map g = leave node (g r) parents := by
  cases parents <;> rfl

/-- The machine does the same over streams that correspond. -/
theorem perform_map {ignore : R → R} {unget : Char → R → R} {ignore' : S → S}
    {unget' : Char → S → S} (g : R → S) {c : Char} {r : R}
    (hignore : g (ignore r) = ignore' (g r)) (hunget : g (unget c r) = unget' c (g r))
    (parents : List Frame) (a : Action) :
    (perform ignore unget c r parents a).map g = perform ignore' unget' c (g r) parents a := by
  cases a with
  | finish node => exact leave_map g node r parents
  | consumeFinish node => rw [perform, leave_map, hignore, perform]
  | consume f => simp [perform, Progress.map, Config.map, hignore]
  | unget f => simp [perform, Progress.map, Config.map, hunget]
  | enter f => simp [perform, Progress.map, Config.map, hunget]
  | stay f => rfl
  | goto f => rfl
  | fail message => rfl

theorem leave_reader (node : XMLNode) (r : R) (parents : List Frame) :
    (leave node r parents).reader = r := by
  cases parents <;> rfl

theorem finishes_of_done {ignore : R → R} {unget : Char → R → R} {c : Char} {r r' : R}
    {parents : List Frame} {a : Action} {node : XMLNode}
    (h : perform ignore unget c r parents a = .done node r') :
    ∃ node', a = .finish node' ∨ a = .consumeFinish node' := by
  cases a with
  | finish node => exact ⟨node, .inl rfl⟩
  | consumeFinish node => exact ⟨node, .inr rfl⟩
  | _ => cases h

end Progress

section Steps

open Reader

/-- The text that a configuration has left to read. -/
def Config.text (cfg : Config Reader) : Config (List Char) := cfg.map Reader.rest

/-- A move over the text alone. -/
def Moves (cfg : Config (List Char)) (o : Progress (List Char)) : Prop :=
  ∃ c rest, Delivers cfg.reader c rest ∧ (looks cfg.frame false c = true → rest ≠ []) ∧
    o = perform List.tail List.cons c rest cfg.parents
      (handle cfg.frame false c (if looks cfg.frame false c then rest.head? else none))

/-- A call of the parser returns a node, and leaves text. -/
inductive Accepts : Config (List Char) → XMLNode → List Char → Prop
  | last {cfg : Config (List Char)} {node : XMLNode} {rest : List Char}
      (move : Moves cfg (.done node rest)) : Accepts cfg node rest
  | next {cfg cfg' : Config (List Char)} {node : XMLNode} {rest : List Char}
      (move : Moves cfg (.running cfg')) (run : Accepts cfg' node rest) : Accepts cfg node rest

variable {cfg : Config Reader} {o : Progress Reader}

/-- What every move preserves holds of the result of a run. -/
theorem Accepts.invariant {P : Progress (List Char) → Prop} {cfg : Config (List Char)}
    {node : XMLNode} {rest : List Char} (h : Accepts cfg node rest)
    (hmoves : ∀ cfg o, Moves cfg o → P (.running cfg) → P o) (hcfg : P (.running cfg)) :
    P (.done node rest) := by
  induction h with
  | last move => exact hmoves _ _ move hcfg
  | next move _ ih => exact ih (hmoves _ _ move hcfg)

theorem ready_of_getChar {r t : Reader} {c : Char} (h : r.getChar = .ok (c, t))
    (hr : r.escaped = false) : r.Ready := by
  have hgood : r.good = true := by
    by_contra hnot
    rw [getChar, getCharWithin, bind_eq_ok] at h
    obtain ⟨p, hlow, -⟩ := h
    exact getCharLow_ne_ok (Bool.eq_false_iff.mpr hnot) hlow
  rw [Reader.good, Bool.and_eq_true, Bool.not_eq_true', Bool.not_eq_true'] at hgood
  exact ⟨hgood.1, hgood.2, hr⟩

theorem peek_end {r : Reader} (h : r.rest = []) :
    r.peek.1 = none ∧ r.peek.2.rest = [] ∧ r.peek.2.escaped = r.escaped := by
  rw [Reader.peek]
  split_ifs
  · simp [h]
  · simp [h]

theorem looks_ne {f : Frame} {c : Char} (h : looks f false c = true) : c ≠ '>' := by
  rintro rfl
  simp [looks] at h

/-- What a step reads, and what it sees of what follows. At the end of the stream it may read
something else than a closing bracket, behind which nothing can be read. -/
theorem step_ok (h : step cfg = .ok o) (hr : cfg.reader.escaped = false) :
    ∃ c r skipped next, Skipped skipped ∧ cfg.reader.rest = skipped ++ c :: r.rest ∧
      r.escaped = false ∧
      o = perform Reader.ignore Reader.unget c r cfg.parents (handle cfg.frame false c next) ∧
      (r.rest = [] ∧ next = none ∧ c ≠ '>' ∨ r.Ready ∧ Delivers cfg.reader.rest c r.rest ∧
        (looks cfg.frame false c = true → r.rest ≠ []) ∧
        next = if looks cfg.frame false c then r.rest.head? else none) := by
  rw [step, bind_eq_ok] at h
  obtain ⟨⟨c, t⟩, hget, h⟩ := h
  obtain ⟨⟨skipped, hskipped, htext⟩, hc, hescaped, hlook⟩ :=
    getChar_ok hget (ready_of_getChar hget hr)
  simp only [hescaped] at h
  by_cases hlooks : looks cfg.frame false c = true
  · simp only [hlooks, if_true] at h
    by_cases hend : t.rest = []
    · obtain ⟨hnext, hrest, hesc⟩ := peek_end hend
      rw [hesc, hnext, hescaped] at h
      cases h
      exact ⟨c, t.peek.2, skipped, none, hskipped, by rw [htext, hend, hrest],
        hesc.trans hescaped, rfl, .inl ⟨hrest, rfl, looks_ne hlooks⟩⟩
    · rcases hlook with ⟨-, hnil⟩ | ⟨hready, hlook⟩
      · exact absurd hnil hend
      · rw [hready.peek hend, hescaped] at h
        cases h
        exact ⟨c, t, skipped, t.rest.head?, hskipped, htext, hescaped, rfl,
          .inr ⟨hready, ⟨hc, hlook, skipped, hskipped, htext⟩, fun _ => hend, by rw [if_pos hlooks]⟩⟩
  · simp only [hlooks, Bool.false_eq_true, if_false, hescaped] at h
    cases h
    refine ⟨c, t, skipped, none, hskipped, htext, hescaped, rfl, ?_⟩
    rcases hlook with ⟨rfl, hnil⟩ | ⟨hready, hlook⟩
    · exact .inl ⟨hnil, rfl, by decide⟩
    · exact .inr ⟨hready, ⟨hc, hlook, skipped, hskipped, htext⟩, fun h => absurd h hlooks,
        by rw [if_neg hlooks]⟩

theorem unget_ready {r : Reader} (h : r.Ready) (c : Char) :
    (r.unget c).Ready ∧ (r.unget c).rest = c :: r.rest := by
  rw [Reader.unget, if_neg (by simp [h.failbit])]
  exact ⟨⟨rfl, h.failbit, h.escaped⟩, rfl⟩

theorem unget_rest (r : Reader) (c : Char) :
    ((r.unget c).rest = r.rest ∨ (r.unget c).rest = c :: r.rest) ∧
      (r.unget c).escaped = r.escaped := by
  rw [Reader.unget]
  split_ifs
  · exact ⟨.inl rfl, rfl⟩
  · exact ⟨.inr rfl, rfl⟩

/-- A step leaves a part of what is left from its character on. -/
theorem rest_perform (c : Char) (r : Reader) (parents : List Frame) (a : Action) :
    (perform Reader.ignore Reader.unget c r parents a).reader.rest <:+ c :: r.rest := by
  have hsame : r.rest <:+ c :: r.rest := List.suffix_cons c r.rest
  have htail : r.ignore.rest <:+ c :: r.rest := (List.tail_suffix r.rest).trans hsame
  have hunget : (r.unget c).rest <:+ c :: r.rest := by
    rcases (unget_rest r c).1 with h | h
    · rw [h]
      exact hsame
    · rw [h]
  cases a with
  | finish node => rw [perform, leave_reader]; exact hsame
  | consumeFinish node => rw [perform, leave_reader]; exact htail
  | stay f => exact hsame
  | goto f => exact hsame
  | consume f => exact htail
  | unget f => exact hunget
  | enter f => exact hunget
  | fail message => exact hsame

/-- No step invents text, or an escape. -/
theorem perform_reader (c : Char) (r : Reader) (parents : List Frame) (a : Action) :
    ((perform Reader.ignore Reader.unget c r parents a).reader.rest ⊆ c :: r.rest) ∧
      (perform Reader.ignore Reader.unget c r parents a).reader.escaped = r.escaped := by
  refine ⟨(rest_perform c r parents a).subset, ?_⟩
  cases a with
  | finish node => rw [perform, leave_reader]
  | consumeFinish node => rw [perform, leave_reader]; rfl
  | unget f => exact (unget_rest r c).2
  | enter f => exact (unget_rest r c).2
  | _ => rfl

theorem perform_ready {c : Char} {r : Reader} (h : r.Ready) (parents : List Frame) (a : Action) :
    (perform Reader.ignore Reader.unget c r parents a).reader.Ready := by
  cases a with
  | finish node => rw [perform, leave_reader]; exact h
  | consumeFinish node => rw [perform, leave_reader]; exact h.ignore
  | stay f => exact h
  | goto f => exact h
  | consume f => exact h.ignore
  | unget f => exact (unget_ready h c).1
  | enter f => exact (unget_ready h c).1
  | fail message => exact h

/-- The machine gives a result only at a closing bracket. -/
theorem perform_done {c : Char} {r r' : Reader} {parents : List Frame} {f : Frame}
    {next : Option Char} {node : XMLNode}
    (h : perform Reader.ignore Reader.unget c r parents (handle f false c next) = .done node r') :
    c = '>' ∨ next = some '>' := by
  obtain ⟨node', hfinish | hfinish⟩ := finishes_of_done h
  · exact .inl (handle_finish hfinish)
  · exact .inr (handle_consumeFinish hfinish)

/-- A step moves over the text; else it was the last one that can be made. -/
theorem step_moves (h : step cfg = .ok o) (hr : cfg.reader.escaped = false) :
    (o.reader.Ready ∧ Moves cfg.text (o.map Reader.rest)) ∨
      '>' ∉ o.reader.rest ∧ ∀ node r, o ≠ .done node r := by
  obtain ⟨c, r, skipped, next, -, htext, -, rfl, ⟨hend, rfl, hc⟩ | ⟨hready, hdelivers, hlook, rfl⟩⟩ :=
    step_ok h hr
  · refine .inr ⟨?_, ?_⟩
    · intro hmem
      have hin := (perform_reader c r cfg.parents _).1 hmem
      rw [hend, List.mem_singleton] at hin
      exact hc hin.symm
    · intro node r' hdone
      rcases perform_done hdone with heq | heq
      · exact hc heq
      · cases heq
  · refine .inl ⟨perform_ready hready _ _, c, r.rest, hdelivers, hlook, ?_⟩
    exact perform_map Reader.rest rfl (unget_ready hready c).2 cfg.parents _

theorem step_escaped (h : step cfg = .ok o) (hr : cfg.reader.escaped = false) :
    o.reader.escaped = false := by
  obtain ⟨c, r, -, next, -, -, hescaped, rfl, -⟩ := step_ok h hr
  exact (perform_reader c r cfg.parents _).2.trans hescaped

/-- Where no closing bracket is left, no result comes any more. -/
theorem run_ne_ok {n : ℕ} {cfg : Config Reader} (hr : cfg.reader.escaped = false)
    (hnone : '>' ∉ cfg.reader.rest) (node : XMLNode) (r : Reader) :
    run n cfg ≠ some (.ok (node, r)) := by
  induction n generalizing cfg with
  | zero => simp [run]
  | succ n ih =>
    intro h
    rw [run] at h
    cases hstep : step cfg with
    | error what => simp [hstep] at h
    | ok o =>
      obtain ⟨c, s, skipped, next, -, htext, -, ho, hend⟩ := step_ok hstep hr
      have hkept : o.reader.rest ⊆ c :: s.rest := by
        rw [ho]
        exact (perform_reader c s cfg.parents _).1
      have hsub : c :: s.rest ⊆ cfg.reader.rest := by
        rw [htext]
        exact List.subset_append_right skipped _
      cases o with
      | running cfg' =>
        simp only [hstep] at h
        exact ih (step_escaped hstep hr) (fun hmem => hnone (hsub (hkept hmem))) h
      | failed message r' => simp [hstep] at h
      | done node' r' =>
        rcases perform_done ho.symm with heq | heq
        · exact hnone (hsub (heq ▸ List.mem_cons_self))
        · rcases hend with ⟨-, hnext, -⟩ | ⟨-, -, -, hnext⟩
          · rw [hnext] at heq
            cases heq
          · rw [hnext] at heq
            split_ifs at heq
            exact hnone (hsub (List.mem_cons_of_mem _ (List.mem_of_mem_head? heq)))

/-- A run of the parser that gives a node is a sequence of moves over the text. -/
theorem accepts_of_run {n : ℕ} {cfg : Config Reader} {node : XMLNode} {r : Reader}
    (hr : cfg.reader.escaped = false) (h : run n cfg = some (.ok (node, r))) :
    Accepts cfg.text node r.rest := by
  induction n generalizing cfg with
  | zero => simp [run] at h
  | succ n ih =>
    rw [run] at h
    cases hstep : step cfg with
    | error what => simp [hstep] at h
    | ok o =>
      rcases step_moves hstep hr with ⟨hready, hmoves⟩ | ⟨hnone, hnot⟩
      · cases o with
        | running cfg' =>
          simp only [hstep] at h
          exact .next hmoves (ih hready.escaped h)
        | failed message r' => simp [hstep] at h
        | done node' r' =>
          simp only [hstep, Option.some.injEq, Except.ok.injEq, Prod.mk.injEq] at h
          obtain ⟨rfl, rfl⟩ := h
          exact .last hmoves
      · cases o with
        | running cfg' =>
          simp only [hstep] at h
          exact absurd h (run_ne_ok (step_escaped hstep hr) hnone node r)
        | failed message r' => simp [hstep] at h
        | done node' r' => exact absurd rfl (hnot node' r')

/-- Every move over the text is a step of the parser. -/
theorem step_of_moves {o : Progress (List Char)} (h : Moves cfg.text o) (hr : cfg.reader.Ready) :
    ∃ o', step cfg = .ok o' ∧ o'.map Reader.rest = o ∧ o'.reader.Ready := by
  obtain ⟨c, rest, hdelivers, hlook, rfl⟩ := h
  obtain ⟨t, hget, rfl, ht⟩ := getChar_of_delivers hdelivers hr
  refine ⟨_, ?_, perform_map Reader.rest rfl (unget_ready ht c).2 cfg.parents _,
    perform_ready ht _ _⟩
  rw [step, bind_eq_ok]
  refine ⟨_, hget, ?_⟩
  change looks cfg.frame false c = true → t.rest ≠ [] at hlook
  change _ = Except.ok (perform Reader.ignore Reader.unget c t cfg.parents (handle cfg.frame false c
    (if looks cfg.frame false c then t.rest.head? else none)))
  by_cases hlooks : looks cfg.frame false c = true
  · simp [ht.escaped, hlooks, ht.peek (hlook hlooks), pure, Except.pure]
  · simp [ht.escaped, hlooks, pure, Except.pure]

theorem run_of_accepts {start : Config (List Char)} {node : XMLNode} {rest : List Char}
    (h : Accepts start node rest) {cfg : Config Reader} (htext : cfg.text = start)
    (hr : cfg.reader.Ready) : ∃ n r, run n cfg = some (.ok (node, r)) ∧ r.rest = rest := by
  induction h generalizing cfg with
  | last move =>
    subst htext
    obtain ⟨o, hstep, ho, -⟩ := step_of_moves move hr
    cases o with
    | running cfg' => cases ho
    | failed message r => cases ho
    | done node r =>
      cases ho
      exact ⟨1, r, by simp [run, hstep], rfl⟩
  | next move _ ih =>
    subst htext
    obtain ⟨o, hstep, ho, hready⟩ := step_of_moves move hr
    cases o with
    | done node r => cases ho
    | failed message r => cases ho
    | running cfg' =>
      have htext : cfg'.text = _ := Progress.running.inj ho
      obtain ⟨n, r, hrun, hrest⟩ := ih htext hready
      exact ⟨n + 1, r, by simp [run, hstep, hrun], hrest⟩

end Steps

section Parse

/-- The bound on the steps of the parser: every character is read, and put back at most
twice. -/
def weight (cfg : Config Reader) : ℕ := 3 * cfg.reader.rest.length + cfg.frame.state.rank

theorem rank_le (s : ParseState) : s.rank ≤ 2 := by
  cases s <;> simp [ParseState.rank]

theorem weight_step {cfg cfg' : Config Reader} (h : step cfg = .ok (.running cfg'))
    (hr : cfg.reader.escaped = false) : weight cfg' < weight cfg := by
  obtain ⟨c, r, skipped, next, -, htext, -, ho, -⟩ := step_ok h hr
  have hlength : r.rest.length + 1 ≤ cfg.reader.rest.length := by
    rw [htext, List.length_append, List.length_cons]
    omega
  have htail : r.ignore.rest.length ≤ r.rest.length := by
    rw [Reader.rest_ignore, List.length_tail]
    omega
  have hunget : (r.unget c).rest.length ≤ r.rest.length + 1 := by
    rcases (unget_rest r c).1 with heq | heq <;> simp [heq]
  have hrank := rank_le cfg'.frame.state
  have hleave : ∀ {node r'}, r'.rest.length ≤ r.rest.length →
      Progress.running cfg' = leave node r' cfg.parents →
      cfg'.reader.rest.length ≤ r.rest.length := by
    intro node r' hle hcfg
    have hreader := congrArg Progress.reader hcfg
    rw [leave_reader] at hreader
    change cfg'.reader = r' at hreader
    rwa [hreader]
  unfold weight
  cases ha : handle cfg.frame false c next with
  | unget f =>
    have hlt := handle_unget ha
    rw [ha] at ho
    cases ho
    simp only
    omega
  | enter f =>
    have hstate := (handle_enter ha).1
    rw [ha] at ho
    cases ho
    simp only [hstate, ParseState.rank]
    omega
  | finish node =>
    rw [ha] at ho
    have := hleave le_rfl ho
    omega
  | consumeFinish node =>
    rw [ha] at ho
    have := hleave htail ho
    omega
  | consume f =>
    rw [ha] at ho
    cases ho
    simp only at hrank ⊢
    omega
  | stay f =>
    rw [ha] at ho
    cases ho
    simp only at hrank ⊢
    omega
  | goto f =>
    rw [ha] at ho
    cases ho
    simp only at hrank ⊢
    omega
  | fail message =>
    rw [ha] at ho
    cases ho

theorem run_isSome {n : ℕ} {cfg : Config Reader} (hr : cfg.reader.escaped = false)
    (hn : weight cfg < n) : (run n cfg).isSome := by
  induction n generalizing cfg with
  | zero => omega
  | succ n ih =>
    rw [run]
    cases hstep : step cfg with
    | error what => rfl
    | ok o =>
      cases o with
      | running cfg' =>
        have hlt := weight_step hstep hr
        exact ih (step_escaped hstep hr) (by omega)
      | done node r => rfl
      | failed message r => rfl

theorem run_unique {m n : ℕ} {cfg : Config Reader} {x y : Except String (XMLNode × Reader)}
    (hx : run m cfg = some x) (hy : run n cfg = some y) : x = y := by
  induction m generalizing n cfg with
  | zero => cases hx
  | succ m ih =>
    cases n with
    | zero => cases hy
    | succ n =>
      rw [run] at hx hy
      cases hstep : step cfg with
      | error what =>
        simp only [hstep, Option.some.injEq] at hx hy
        exact hx.symm.trans hy
      | ok o =>
        cases o with
        | running cfg' =>
          simp only [hstep] at hx hy
          exact ih hx hy
        | done node r =>
          simp only [hstep, Option.some.injEq] at hx hy
          exact hx.symm.trans hy
        | failed message r =>
          simp only [hstep, Option.some.injEq] at hx hy
          exact hx.symm.trans hy

theorem run_start_isSome (text : List Char) : (run (3 * text.length + 1) (start text)).isSome := by
  apply run_isSome rfl
  simp [weight, start, ParseState.rank]

/-- `XMLparser::parse` on a stream with the given text: the node, and where the stream stands. -/
def parse (text : List Char) : Except String (XMLNode × Reader) :=
  (run (3 * text.length + 1) (start text)).get (run_start_isSome text)

/-- What the parser returns, and what it leaves unread. -/
theorem parse_ok_iff (text : List Char) (node : XMLNode) (rest : List Char) :
    (∃ r, parse text = .ok (node, r) ∧ r.rest = rest) ↔ Accepts ⟨text, {}, []⟩ node rest := by
  have hrun : run (3 * text.length + 1) (start text) = some (parse text) := (Option.some_get _).symm
  constructor
  · rintro ⟨r, hparse, rfl⟩
    rw [hparse] at hrun
    exact accepts_of_run rfl hrun
  · intro h
    have hstart : (start text).text = ⟨text, {}, []⟩ := rfl
    obtain ⟨n, r, hn, hrest⟩ := run_of_accepts h hstart ⟨rfl, rfl, rfl⟩
    exact ⟨r, run_unique hrun hn, hrest⟩

end Parse

end Ctguard.XML
