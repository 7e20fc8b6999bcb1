import Ctguard.PlainHost
import Ctguard.XMLParser

/-!
# The root element of a rule file

The parser returns when the first element is closed, and what follows is never read. Where that
is can be told from the text alone, by counting the tags that open and close elements: in an
accepted file nothing is ignored exactly if nothing but whitespace and comments follows.
-/

namespace Ctguard.XML

/-- What an action leaves of the text behind its character. -/
def Action.left (c : Char) (rest : List Char) : Action → List Char
  | .consume _ => rest.tail
  | .consumeFinish _ => rest.tail
  | .unget _ => c :: rest
  | .enter _ => c :: rest
  | _ => rest

section Locality

theorem leave_text (node : XMLNode) (rest rest' : List Char) (parents : List Frame) :
    (leave node rest parents).map (fun _ => rest') = leave node rest' parents :=
  leave_map (fun _ => rest') node rest parents

/-- The outcome of an action depends on the text only in the text that is left. -/
theorem perform_left (c : Char) (rest rest' : List Char) (parents : List Frame) (a : Action) :
    perform List.tail List.cons c rest' parents a =
      (perform List.tail List.cons c rest parents a).map (fun _ => a.left c rest') := by
  cases a with
  | finish node => exact (leave_text node rest rest' parents).symm
  | consumeFinish node => exact (leave_text node rest.tail rest'.tail parents).symm
  | _ => rfl

theorem perform_reader_eq (c : Char) (rest : List Char) (parents : List Frame) (a : Action) :
    (perform List.tail List.cons c rest parents a).reader = a.left c rest := by
  cases a with
  | finish node => exact leave_reader node rest parents
  | consumeFinish node => exact leave_reader node rest.tail parents
  | _ => rfl

/-- What is looked at is what comes next. -/
theorem head_of_looks {f : Frame} {c d : Char} {rest : List Char}
    (h : (if looks f false c then rest.head? else none) = some d) : rest.head? = some d := by
  split_ifs at h
  exact h

/-- A move performs what is to be done with a character. -/
theorem Moves.exists_action {cfg : Config (List Char)} {o : Progress (List Char)}
    (h : Moves cfg o) : ∃ c rest next, Delivers cfg.reader c rest ∧
      (∀ d, next = some d → rest.head? = some d) ∧
      o = perform List.tail List.cons c rest cfg.parents (handle cfg.frame false c next) := by
  obtain ⟨c, rest, hdelivers, -, rfl⟩ := h
  exact ⟨c, rest, _, hdelivers, fun _ => head_of_looks, rfl⟩

theorem exists_left (c : Char) (rest : List Char) (a : Action) :
    ∃ w, c :: rest = w ++ a.left c rest := by
  have htail : ∃ w, c :: rest = w ++ rest.tail := by
    cases rest with
    | nil => exact ⟨[c], rfl⟩
    | cons d ds => exact ⟨[c, d], rfl⟩
  cases a with
  | consume f => exact htail
  | consumeFinish node => exact htail
  | unget f => exact ⟨[], rfl⟩
  | enter f => exact ⟨[], rfl⟩
  | _ => exact ⟨[c], rfl⟩

theorem Moves.suffix {cfg : Config (List Char)} {o : Progress (List Char)} (h : Moves cfg o) :
    o.reader <:+ cfg.reader := by
  obtain ⟨c, rest, next, ⟨-, -, skipped, -, htext⟩, -, rfl⟩ := h.exists_action
  obtain ⟨w, hw⟩ := exists_left c rest (handle cfg.frame false c next)
  rw [perform_reader_eq, htext, hw, ← List.append_assoc]
  exact List.suffix_append _ _

end Locality

section Tags

/-- Where a text stands: before the root element or between two tags, in a tag that opens an
element, in a value there, or in a tag that closes one. -/
inductive Place where
  | content
  | opening
  | value
  | closing
  deriving DecidableEq

/-- What comes of a character: the text goes on, with this many elements open, or the root element
has ended. -/
inductive Turn where
  | goes (place : Place) (opened : ℕ) (text : List Char)
  | ends (text : List Char)

/-- Only the characters count that begin and end tags and values. -/
def turn (place : Place) (opened : ℕ) (c : Char) (behind : List Char) : Turn :=
  match place with
  | .content =>
    if c ≠ '<' then .goes .content opened behind
    else if 0 < opened ∧ behind.head? = some '/' then .goes .closing opened behind.tail
    else .goes .opening opened behind
  | .opening =>
    if c = '"' then .goes .value opened behind
    else if c = '>' then .goes .content (opened + 1) behind
    else if c ≠ '/' then .goes .opening opened behind
    else if opened = 0 then .ends behind.tail
    else .goes .content opened behind.tail
  | .value => if c = '"' then .goes .opening opened behind else .goes .value opened behind
  | .closing =>
    if c ≠ '>' then .goes .closing opened behind
    else if opened ≤ 1 then .ends behind
    else .goes .content (opened - 1) behind

/-- From a place in the text on, the root element ends where the rest begins. -/
inductive Ends : Place → ℕ → List Char → List Char → Prop
  | last {place : Place} {opened : ℕ} {c : Char} {text behind rest : List Char}
      (read : Delivers text c behind) (turned : turn place opened c behind = .ends rest) :
      Ends place opened text rest
  | next {place place' : Place} {opened opened' : ℕ} {c : Char}
      {text behind text' rest : List Char} (read : Delivers text c behind)
      (turned : turn place opened c behind = .goes place' opened' text')
      (more : Ends place' opened' text' rest) : Ends place opened text rest

/-- Whitespace and comments. -/
inductive Blank : List Char → Prop
  | nil : Blank []
  | space {c : Char} {cs : List Char} (first : isSpace c = true) (rest : Blank cs) : Blank (c :: cs)
  | comment {cs comment : List Char} (first : Comment comment) (rest : Blank cs) :
      Blank (comment ++ cs)

/-- Nothing but whitespace and comments stands behind the first root element of the text. -/
def OneRoot (text : List Char) : Prop := ∃ rest, Ends .content 0 text rest ∧ Blank rest

theorem Ends.unique {place : Place} {opened : ℕ} {text rest rest' : List Char}
    (h : Ends place opened text rest) (h' : Ends place opened text rest') : rest = rest' := by
  induction h with
  | last read turned =>
    cases h' with
    | last read' turned' =>
      obtain ⟨rfl, rfl⟩ := read.unique read'
      rw [turned, Turn.ends.injEq] at turned'
      exact turned'
    | next read' turned' more =>
      obtain ⟨rfl, rfl⟩ := read.unique read'
      rw [turned] at turned'
      cases turned'
  | next read turned more ih =>
    cases h' with
    | last read' turned' =>
      obtain ⟨rfl, rfl⟩ := read.unique read'
      rw [turned] at turned'
      cases turned'
    | next read' turned' more' =>
      obtain ⟨rfl, rfl⟩ := read.unique read'
      rw [turned, Turn.goes.injEq] at turned'
      obtain ⟨rfl, rfl, rfl⟩ := turned'
      exact ih more'

/-- A character that is put back is the one that is read next. -/
theorem Ends.put_back {place : Place} {opened : ℕ} {c : Char} {text behind rest : List Char}
    (h : Ends place opened (c :: behind) rest) (hc : Delivers text c behind) :
    Ends place opened text rest := by
  cases h with
  | last read turned =>
    obtain ⟨rfl, rfl⟩ := hc.behind_skipped.unique read
    exact .last hc turned
  | next read turned more =>
    obtain ⟨rfl, rfl⟩ := hc.behind_skipped.unique read
    exact .next hc turned more

end Tags

section Simulation

def Frame.place (f : Frame) : Place :=
  match f.state with
  | .initial | .body => .content
  | .openTagKey | .openTagAttr | .attrKey => .opening
  | .attrValue => .value
  | .closeTag => .closing

/-- Every call that waits has an open element, and the running one has it behind its first tag. -/
def Frame.opened (f : Frame) (parents : List Frame) : ℕ :=
  match f.state with
  | .body | .closeTag => parents.length + 1
  | _ => parents.length

/-- Where the root element ends, from what the parser has come to. -/
def Progress.Ends (rest : List Char) : Progress (List Char) → Prop
  | .running cfg => XML.Ends cfg.frame.place (cfg.frame.opened cfg.parents) cfg.reader rest
  | .done _ text => text = rest
  | .failed _ _ => False

/-- The calls that wait are between two tags, and a child begins with the bracket of its first
tag. -/
structure Nested (cfg : Config (List Char)) : Prop where
  parents : ∀ p ∈ cfg.parents, p.state = .body
  child : cfg.frame.state = .initial → cfg.parents ≠ [] →
    ∃ behind, Delivers cfg.reader '<' behind ∧ behind.head? ≠ some '/'

theorem isNameChar_ne_mark {c : Char} (h : isNameChar c = true) : c ≠ '"' ∧ c ≠ '>' ∧ c ≠ '/' := by
  refine ⟨?_, ?_, ?_⟩ <;> rintro rfl <;> revert h <;> decide

theorem isSpace_ne_mark {c : Char} (h : isSpace c = true) :
    c ≠ '<' ∧ c ≠ '"' ∧ c ≠ '>' ∧ c ≠ '/' := by
  refine ⟨?_, ?_, ?_, ?_⟩ <;> rintro rfl <;> revert h <;> decide

section States

variable {f : Frame} {parents : List Frame} {c : Char} {text behind rest : List Char}
  {next : Option Char}

/-- What the parser has come to, with a character of the text handled in some way. -/
def Action.Ends (c : Char) (behind : List Char) (parents : List Frame) (rest : List Char)
    (a : Action) : Prop :=
  (perform List.tail List.cons c behind parents a).Ends rest

theorem ends_leave {node : XMLNode} (hparents : ∀ p ∈ parents, p.state = .body)
    (h : (leave node text parents).Ends rest) :
    parents = [] ∧ text = rest ∨ parents ≠ [] ∧ Ends .content parents.length text rest := by
  cases parents with
  | nil => exact .inl ⟨rfl, h⟩
  | cons p ps =>
    have hbody := hparents p List.mem_cons_self
    refine .inr ⟨List.cons_ne_nil p ps, ?_⟩
    simpa [leave, Progress.Ends, Frame.place, Frame.opened, hbody] using h

theorem ends_initial (hstate : f.state = .initial) (hc : Delivers text c behind)
    (hchild : ¬ (0 < parents.length ∧ behind.head? = some '/'))
    (h : (initial f false c).Ends c behind parents rest) :
    Ends .content parents.length text rest := by
  rw [initial] at h
  split_ifs at h with hspace hopen
  · have hmore : Ends .content parents.length behind rest := by
      simpa [Action.Ends, perform, Progress.Ends, Frame.place, Frame.opened, hstate] using h
    exact .next hc (by simp [turn, (isSpace_ne_mark hspace).1]) hmore
  · obtain ⟨-, rfl⟩ := hopen
    have hmore : Ends .opening parents.length behind rest := h
    exact .next hc (by simp [turn, hchild]) hmore
  · exact h.elim

theorem ends_openTagKey (hstate : f.state = .openTagKey) (hc : Delivers text c behind)
    (h : (openTagKey f c).Ends c behind parents rest) : Ends .opening parents.length text rest := by
  rw [openTagKey] at h
  split_ifs at h with hname
  · have hmore : Ends .opening parents.length behind rest := by
      simpa [Action.Ends, perform, Progress.Ends, Frame.place, Frame.opened, hstate] using h
    exact .next hc (by simp [turn, isNameChar_ne_mark hname]) hmore
  · have hsame : Ends .opening parents.length (c :: behind) rest := h
    exact hsame.put_back hc

theorem ends_openTagAttr (hstate : f.state = .openTagAttr) (hc : Delivers text c behind)
    (hparents : ∀ p ∈ parents, p.state = .body)
    (h : (openTagAttr f false c next).Ends c behind parents rest) :
    Ends .opening parents.length text rest := by
  rw [openTagAttr] at h
  split_ifs at h with hspace hkey hend hclose
  · have hmore : Ends .opening parents.length behind rest := by
      simpa [Action.Ends, perform, Progress.Ends, Frame.place, Frame.opened, hstate] using h
    exact .next hc (by simp [turn, isSpace_ne_mark hspace]) hmore
  · have hsame : Ends .opening parents.length (c :: behind) rest := h
    exact hsame.put_back hc
  · obtain ⟨-, rfl, -⟩ := hend
    rcases ends_leave hparents h with ⟨rfl, rfl⟩ | ⟨hne, hmore⟩
    · exact .last hc (by simp [turn])
    · exact .next hc (by simp [turn, hne]) hmore
  · obtain ⟨-, rfl⟩ := hclose
    have hmore : Ends .content (parents.length + 1) behind rest := h
    exact .next hc (by simp [turn]) hmore
  · exact h.elim

theorem ends_attrKey (hstate : f.state = .attrKey) (hc : Delivers text c behind)
    (hnext : c = '=' → next = behind.head?)
    (h : (attrKey f false c next).Ends c behind parents rest) :
    Ends .opening parents.length text rest := by
  rw [attrKey] at h
  have hkey : (if f.inLoop then f else { f with attrKey := "" }).state = .attrKey := by
    split_ifs <;> exact hstate
  generalize (if f.inLoop then f else { f with attrKey := "" }) = g at h hkey
  split_ifs at h with hname _ hvalue
  · have hmore : Ends .opening parents.length behind rest := by
      simpa [Action.Ends, perform, Progress.Ends, Frame.place, Frame.opened, hkey] using h
    exact .next hc (by simp [turn, isNameChar_ne_mark hname]) hmore
  · exact h.elim
  · -- the quote is consumed with the character before it
    obtain ⟨-, rfl, hquote⟩ := hvalue
    obtain ⟨ds, rfl⟩ := List.head?_eq_some_iff.mp ((hnext rfl).symm.trans hquote)
    have hmore : Ends .value parents.length ds rest := h
    have hread : Delivers ('"' :: ds) '"' ds := ⟨by decide, by simp, [], .nil, rfl⟩
    have hvalue : Ends .opening parents.length ('"' :: ds) rest := .next hread rfl hmore
    exact .next hc (by simp [turn]) hvalue
  · exact h.elim

theorem ends_attrValue (hstate : f.state = .attrValue) (hc : Delivers text c behind)
    (h : (attrValue f false c).Ends c behind parents rest) :
    Ends .value parents.length text rest := by
  simp only [attrValue, Bool.false_eq_true, false_or, true_and] at h
  have hvalue : (if f.inLoop then f else { f with attrValue := "" }).state = .attrValue := by
    split_ifs <;> exact hstate
  generalize (if f.inLoop then f else { f with attrValue := "" }) = g at h hvalue
  split_ifs at h with hchar hquote
  · have hbehind : Ends .value parents.length behind rest := by
      simpa [Action.Ends, perform, Progress.Ends, Frame.place, Frame.opened, hvalue] using h
    exact .next hc (by simp [turn, hchar.1]) hbehind
  · subst hquote
    have hbehind : Ends .opening parents.length behind rest := h
    exact .next hc (by simp [turn]) hbehind
  · exact h.elim

theorem ends_body (hstate : f.state = .body) (hc : Delivers text c behind)
    (hnext : c = '<' → next = behind.head?)
    (h : (body f false c next).Ends c behind parents rest) :
    Ends .content (parents.length + 1) text rest := by
  simp only [body, Bool.false_eq_true, false_or, true_and] at h
  split_ifs at h with hchar htab hclose hopen
  · have hmore : Ends .content (parents.length + 1) behind rest := by
      simpa [Action.Ends, perform, Progress.Ends, Frame.place, Frame.opened, hstate] using h
    exact .next hc (by simp [turn, hchar.1]) hmore
  · have hmore : Ends .content (parents.length + 1) behind rest := by
      simpa [Action.Ends, perform, Progress.Ends, Frame.place, Frame.opened, hstate] using h
    exact .next hc (by simp [turn, hchar.1]) hmore
  · obtain ⟨rfl, hslash⟩ := hclose
    have hmore : Ends .closing (parents.length + 1) behind.tail rest := h
    exact .next hc (by simp [turn, ← hnext rfl, hslash]) hmore
  · have hsame : Ends .content (parents.length + 1) (c :: behind) rest := h
    exact hsame.put_back hc
  · exact h.elim

theorem ends_closeTag (hstate : f.state = .closeTag) (hc : Delivers text c behind)
    (hparents : ∀ p ∈ parents, p.state = .body)
    (h : (closeTag f false c).Ends c behind parents rest) :
    Ends .closing (parents.length + 1) text rest := by
  rw [closeTag] at h
  split_ifs at h with hname hend hsame
  · have hmore : Ends .closing (parents.length + 1) behind rest := by
      simpa [Action.Ends, perform, Progress.Ends, Frame.place, Frame.opened, hstate] using h
    exact .next hc (by simp [turn, isNameChar_ne_mark hname]) hmore
  · exact h.elim
  · obtain ⟨-, rfl⟩ := hend
    rcases ends_leave hparents h with ⟨rfl, rfl⟩ | ⟨hne, hmore⟩
    · exact .last hc (by simp [turn])
    · exact .next hc (by simp [turn, hne]) hmore
  · exact h.elim

end States

variable {cfg cfg' : Config (List Char)} {o : Progress (List Char)} {node : XMLNode}
  {rest : List Char}

/-- What the parser does with a character turns the text in the same way. -/
theorem Moves.ends (h : Moves cfg o) (hcfg : Nested cfg) (ho : o.Ends rest) :
    (Progress.running cfg).Ends rest := by
  obtain ⟨c, behind, hc, -, rfl⟩ := h
  have hnext : cfg.frame.state = .body ∧ c = '<' ∨ cfg.frame.state = .attrKey ∧ c = '=' →
      (if looks cfg.frame false c then behind.head? else none) = behind.head? := by
    intro hlook
    rw [if_pos]
    simpa [looks, or_assoc] using hlook.imp_right .inl
  generalize (if looks cfg.frame false c then behind.head? else none) = next at ho hnext
  rw [handle] at ho
  split_ifs at ho
  · exact ho.elim
  rw [Progress.Ends, Frame.place, Frame.opened]
  cases hstate : cfg.frame.state with
  | initial =>
    rw [hstate] at ho
    refine ends_initial hstate hc ?_ ho
    rintro ⟨hpos, hslash⟩
    obtain ⟨behind', hread, hnot⟩ := hcfg.child hstate (List.length_pos_iff.mp hpos)
    obtain ⟨-, rfl⟩ := hc.unique hread
    exact hnot hslash
  | openTagKey =>
    rw [hstate] at ho
    exact ends_openTagKey hstate hc ho
  | openTagAttr =>
    rw [hstate] at ho
    exact ends_openTagAttr hstate hc hcfg.parents ho
  | body =>
    rw [hstate] at ho
    exact ends_body hstate hc (fun heq => hnext (.inl ⟨hstate, heq⟩)) ho
  | closeTag =>
    rw [hstate] at ho
    exact ends_closeTag hstate hc hcfg.parents ho
  | attrKey =>
    rw [hstate] at ho
    exact ends_attrKey hstate hc (fun heq => hnext (.inr ⟨hstate, heq⟩)) ho
  | attrValue =>
    rw [hstate] at ho
    exact ends_attrValue hstate hc ho

theorem nested_leave {text : List Char} {parents : List Frame}
    (hparents : ∀ p ∈ parents, p.state = .body) (h : leave node text parents = .running cfg') :
    Nested cfg' := by
  cases parents with
  | nil => cases h
  | cons p ps =>
    obtain ⟨hbody, hps⟩ := List.forall_mem_cons.mp hparents
    cases h
    refine ⟨hps, ?_⟩
    intro hinitial
    rw [hbody] at hinitial
    cases hinitial

/-- Where an action leaves the call: in its first state only behind whitespace, and a child is
only entered at the bracket of a tag that opens. -/
def Action.Leads (f : Frame) (c : Char) (next : Option Char) : Action → Prop
  | .stay g => g.state = f.state ∧ (f.state = .initial → isSpace c = true)
  | .goto g | .consume g | .unget g => g.state ≠ .initial
  | .enter g => g.state = .body ∧ f.state = .body ∧ c = '<' ∧ next ≠ some '/'
  | _ => True

theorem leads_handle (f : Frame) (c : Char) (next : Option Char) :
    (handle f false c next).Leads f c next := by
  rw [handle]
  split_ifs with hzero
  · trivial
  cases hstate : f.state with
  | initial =>
    dsimp only
    rw [initial]
    split_ifs with hspace hopen
    · exact ⟨rfl, fun _ => hspace⟩
    · simp [Action.Leads]
    · trivial
  | body =>
    simp only [body, Bool.false_eq_true, false_or, true_and]
    split_ifs with hchar htab hclose hopen
    · simp [Action.Leads, hstate]
    · simp [Action.Leads, hstate]
    · simp [Action.Leads]
    · exact ⟨hstate, hstate, hopen, fun hslash => hclose ⟨hopen, hslash⟩⟩
    · trivial
  | _ =>
    simp only [openTagKey, openTagAttr, attrKey, attrValue, closeTag]
    split_ifs <;> simp [Action.Leads, hstate]

theorem Moves.nested (h : Moves cfg (.running cfg')) (hcfg : Nested cfg) : Nested cfg' := by
  obtain ⟨c, behind, hc, -, ho⟩ := h
  have hlook : cfg.frame.state = .body ∧ c = '<' →
      (if looks cfg.frame false c then behind.head? else none) = behind.head? := by
    intro hopen
    rw [if_pos]
    simp [looks, hopen]
  generalize (if looks cfg.frame false c then behind.head? else none) = next at ho hlook
  have hleads := leads_handle cfg.frame c next
  have hgone : ∀ {g : Frame} {text : List Char}, g.state ≠ .initial →
      Nested ⟨text, g, cfg.parents⟩ :=
    fun hstate => ⟨hcfg.parents, fun hinitial => absurd hinitial hstate⟩
  cases ha : handle cfg.frame false c next with
  | stay g =>
    rw [ha] at ho hleads
    cases ho
    obtain ⟨hsame, hspace⟩ := hleads
    refine ⟨hcfg.parents, ?_⟩
    intro hinitial hne
    have hstate : cfg.frame.state = .initial := hsame.symm.trans hinitial
    obtain ⟨behind', hread, -⟩ := hcfg.child hstate hne
    exact absurd (hc.unique hread).1 (isSpace_ne_mark (hspace hstate)).1
  | goto g =>
    rw [ha] at ho hleads
    cases ho
    exact hgone hleads
  | consume g =>
    rw [ha] at ho hleads
    cases ho
    exact hgone hleads
  | unget g =>
    rw [ha] at ho hleads
    cases ho
    exact hgone hleads
  | enter g =>
    rw [ha] at ho hleads
    cases ho
    obtain ⟨hbody, hstate, rfl, hslash⟩ := hleads
    refine ⟨List.forall_mem_cons.mpr ⟨hbody, hcfg.parents⟩, fun _ _ => ⟨behind, ?_, ?_⟩⟩
    · exact hc.behind_skipped
    · rwa [← hlook ⟨hstate, rfl⟩]
  | finish node =>
    rw [ha] at ho
    exact nested_leave hcfg.parents ho.symm
  | consumeFinish node =>
    rw [ha] at ho
    exact nested_leave hcfg.parents ho.symm
  | fail message =>
    rw [ha] at ho
    cases ho

theorem Accepts.ends_of_nested (h : Accepts cfg node rest) (hcfg : Nested cfg) :
    (Progress.running cfg).Ends rest := by
  induction h with
  | last move => exact move.ends hcfg rfl
  | next move _ ih => exact move.ends hcfg (ih (move.nested hcfg))

/-- The parser leaves what follows the root element. -/
theorem Accepts.ends {text : List Char} (h : Accepts ⟨text, {}, []⟩ node rest) :
    Ends .content 0 text rest := by
  have hnested : Nested ⟨text, {}, []⟩ := ⟨by simp, by simp⟩
  exact h.ends_of_nested hnested

end Simulation

section Root

variable {ρ : Type} (host : Host ρ) (rules : RuleCfg ρ)

/-- `parse_rules` on a file with the given text. -/
def readRules (text : List Char) : Except String (RuleCfg ρ) := do
  let (root, _) ← parse text
  parseRules host rules root

/-- The text is accepted as a rule file, behind the files that gave the rules so far. -/
def Accepted (text : List Char) : Prop := ∃ rules', readRules host rules text = .ok rules'

/-- If the text is accepted, whitespace and comments are all that is not read. -/
def NothingIgnored (text : List Char) : Prop :=
  ∀ root r, parse text = .ok (root, r) → (∃ rules', parseRules host rules root = .ok rules') →
    Blank r.rest

variable {host rules}

theorem accepted_iff {text : List Char} : Accepted host rules text ↔
    ∃ root rest, Accepts ⟨text, {}, []⟩ root rest ∧
      ∃ rules', parseRules host rules root = .ok rules' := by
  constructor
  · rintro ⟨rules', h⟩
    rw [readRules, bind_eq_ok] at h
    obtain ⟨⟨root, r⟩, hparse, hrules⟩ := h
    exact ⟨root, r.rest, (parse_ok_iff text root r.rest).mp ⟨r, hparse, rfl⟩, rules', hrules⟩
  · rintro ⟨root, rest, haccepts, rules', hrules⟩
    obtain ⟨r, hparse, -⟩ := (parse_ok_iff text root rest).mpr haccepts
    refine ⟨rules', ?_⟩
    rw [readRules, bind_eq_ok]
    exact ⟨_, hparse, hrules⟩

/-- Nothing of an accepted file is ignored exactly if only whitespace and comments follow its first
root element. -/
theorem nothingIgnored_iff {text : List Char} (h : Accepted host rules text) :
    NothingIgnored host rules text ↔ OneRoot text := by
  obtain ⟨root, rest, haccepts, hrules⟩ := accepted_iff.mp h
  obtain ⟨r, hparse, rfl⟩ := (parse_ok_iff text root rest).mpr haccepts
  constructor
  · intro hnothing
    exact ⟨r.rest, haccepts.ends, hnothing root r hparse hrules⟩
  · rintro ⟨rest, hends, hblank⟩ root' r' hparse' -
    rw [hparse, Except.ok.injEq, Prod.mk.injEq] at hparse'
    rw [← hparse'.2, haccepts.ends.unique hends]
    exact hblank

/-- An empty root element with a comment behind it. -/
def commentBehind : List Char := "<rule_group>\n<!-- > --></rule_group>\n<!-- end -->".toList

theorem nothingIgnored_iff_commentBehind : Accepted plainHost {} commentBehind ∧
    (NothingIgnored plainHost {} commentBehind ↔ OneRoot commentBehind) ∧
      OneRoot commentBehind := by
  have hread : (match parse commentBehind with
      | .ok (root, r) => (parseRules plainHost {} root).isOk && r.rest == "\n<!-- end -->".toList
      | .error _ => false) = true := by decide +kernel
  cases hparse : parse commentBehind with
  | error what => simp [hparse] at hread
  | ok result =>
    obtain ⟨root, r⟩ := result
    simp only [hparse, Bool.and_eq_true, beq_iff_eq] at hread
    obtain ⟨hok, hrest⟩ := hread
    have haccepts := (parse_ok_iff commentBehind root r.rest).mp ⟨r, hparse, rfl⟩
    have haccepted := accepted_iff.mpr ⟨root, r.rest, haccepts, exists_ok_of_isOk hok⟩
    refine ⟨haccepted, nothingIgnored_iff haccepted, r.rest, haccepts.ends, ?_⟩
    have hcomment : Comment "<!-- end -->".toList := .mk 0 0 " end ".toList (by decide)
    rw [hrest]
    exact .space rfl (.comment hcomment .nil)

/-- A root element behind the first. -/
def secondGroup : List Char :=
  "<rule_group><rule id=\"1\" priority=\"3\"><regex>x</regex></rule></rule_group>".toList

def twoGroups : List Char := "<rule_group></rule_group>".toList ++ secondGroup

theorem not_blank_secondGroup : ¬ Blank secondGroup := by
  intro h
  generalize hcs : secondGroup = cs at h
  cases h with
  | nil => cases hcs
  | space first rest =>
    cases hcs
    cases first
  | comment first rest =>
    cases first with
    | mk m n body hbody => cases hcs

/-- The second element of an accepted file is ignored. -/
theorem twoGroups_ignored : ¬ NothingIgnored plainHost {} twoGroups := by
  intro h
  have hread : (match parse twoGroups with
      | .ok (root, r) => root.name == "rule_group" && root.attributes == [] &&
          root.children.isEmpty && r.rest == secondGroup
      | .error _ => false) = true := by decide +kernel
  cases hparse : parse twoGroups with
  | error what => simp [hparse] at hread
  | ok result =>
    obtain ⟨root, r⟩ := result
    simp only [hparse, Bool.and_eq_true, beq_iff_eq, List.isEmpty_iff] at hread
    obtain ⟨⟨⟨hname, hattributes⟩, hchildren⟩, hrest⟩ := hread
    have hrules : parseRules plainHost {} root = .ok {} := by
      simp [parseRules, hname, noAttributes, hattributes, hchildren, reject]
      rfl
    exact not_blank_secondGroup (hrest ▸ h root r hparse ⟨_, hrules⟩)

end Root

end Ctguard.XML
