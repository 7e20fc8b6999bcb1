import Ctguard.XMLLostMarks

/-!
# Which documents are read again as they were

A `<` and a `!` that only line breaks and comments separate are not read as the beginning of a
comment. In an accepted document they stand in the value of an attribute, where they come together;
what is printed then contains the beginning of a comment that was none before. Any other document is
read again as it was.
-/

namespace Ctguard.XML

section Keeping

variable {f : Frame} {c : Char} {next : Option Char} {node node' : XMLNode}

/-- The call is behind its opening tag. -/
def Frame.Inner (f : Frame) : Prop := f.state = .body ∨ f.state = .closeTag

/-- The attributes and the children of a call stay as they are. -/
structure Frame.Keeps (f g : Frame) : Prop where
  attributes : g.attributes = f.attributes
  children : g.children = f.children
  inner : f.Inner → g.Inner

/-- Where no value of an attribute is read, an action changes neither attributes nor children; an
element that ends with its opening tag has no children. -/
def Action.Keeps (f : Frame) : Action → Prop
  | .stay g => f.Keeps g ∧ g.state = f.state
  | .goto g => f.Keeps g
  | .consume g => f.Keeps g
  | .unget g => f.Keeps g
  | .enter g => g = f ∧ f.state = .body
  | .finish node => node = f.node
  | .consumeFinish node => node.attributes = f.attributes ∧ node.children = [] ∧ ¬ f.Inner
  | .fail _ => True

theorem handle_keeps (hvalue : f.state ≠ .attrValue) : (handle f false c next).Keeps f := by
  rw [handle]
  split_ifs
  · trivial
  cases hstate : f.state with
  | initial =>
    simp only [initial]
    split_ifs
    · exact ⟨⟨rfl, rfl, id⟩, rfl⟩
    · exact ⟨rfl, rfl, by simp [Frame.Inner, hstate]⟩
    · trivial
  | openTagKey =>
    simp only [openTagKey]
    split_ifs
    · exact ⟨⟨rfl, rfl, id⟩, rfl⟩
    · exact ⟨rfl, rfl, by simp [Frame.Inner, hstate]⟩
  | openTagAttr =>
    simp only [openTagAttr]
    split_ifs
    · exact ⟨⟨rfl, rfl, id⟩, rfl⟩
    · exact ⟨rfl, rfl, by simp [Frame.Inner, hstate]⟩
    · exact ⟨rfl, rfl, by simp [Frame.Inner, hstate]⟩
    · exact ⟨rfl, rfl, by simp [Frame.Inner]⟩
    · trivial
  | body =>
    simp only [body]
    split
    · split_ifs <;> exact ⟨⟨rfl, rfl, id⟩, rfl⟩
    split
    · exact ⟨rfl, rfl, by simp [Frame.Inner]⟩
    split
    · exact ⟨rfl, hstate⟩
    · trivial
  | closeTag =>
    simp only [closeTag]
    split_ifs
    · exact ⟨⟨rfl, rfl, id⟩, rfl⟩
    · trivial
    · rfl
    · trivial
  | attrKey =>
    simp only
    rw [attrKey_eq, clearedKey_eq]
    dsimp only
    split_ifs
    · exact ⟨⟨rfl, rfl, id⟩, rfl⟩
    · trivial
    · exact ⟨rfl, rfl, by simp [Frame.Inner, hstate]⟩
    · trivial
  | attrValue => exact absurd hstate hvalue

end Keeping

section Outside

variable {s t t' text stop rest rest' : List Char} {c d : Char}

/-- The places of a text outside of its comments. -/
inductive Outside (text : List Char) : List Char → Prop
  | start : Outside text text
  | skipped {s t : List Char} (h : Outside text (s ++ t)) (hs : Skipped s) : Outside text t
  | char {t rest : List Char} {c : Char} (h : Outside text t) (hc : Delivers t c rest) :
      Outside text rest

/-- Outside of the comments, a `<` is followed by a `!` that is not the next character in the
text. -/
def Hides (text stop : List Char) : Prop :=
  ∃ t rest rest', Outside text t ∧ Delivers t '<' rest ∧ Delivers rest '!' rest' ∧ stop <:+ rest'

theorem Outside.trans (h : Outside text t) (h' : Outside t t') : Outside text t' := by
  induction h' with
  | start => exact h
  | skipped _ hs ih => exact .skipped ih hs
  | char _ hc ih => exact .char ih hc

/-- The first place at which a character is delivered is at the beginning of the text. -/
theorem Outside.first (h : Outside text t) (hfirst : Delivers text c rest)
    (hd : Delivers t d rest') : d = c ∧ rest' = rest ∨ ∃ t, Outside rest t ∧ Delivers t d rest' := by
  induction h generalizing d rest' with
  | start => exact .inl (hd.unique hfirst)
  | skipped _ hs ih => exact ih ((delivers_skipped hs).mpr hd)
  | char _ hc ih =>
    right
    rcases ih hc with ⟨rfl, rfl⟩ | ⟨t, hout, ht⟩
    · exact ⟨_, .start, hd⟩
    · exact ⟨_, .char hout ht, hd⟩

theorem Hides.first (h : Hides text stop) (hc : Delivers text c rest) :
    c = '<' ∧ (∃ rest', Delivers rest '!' rest' ∧ stop <:+ rest') ∨ Hides rest stop := by
  obtain ⟨t, r, r', hout, hopen, hbang, hstop⟩ := h
  rcases hout.first hc hopen with ⟨rfl, rfl⟩ | ⟨t, hout, ht⟩
  · exact .inl ⟨rfl, r', hbang, hstop⟩
  · exact .inr ⟨t, r, r', hout, ht, hbang, hstop⟩

theorem Hides.of_outside (h : Hides t stop) (hout : Outside text t) : Hides text stop := by
  obtain ⟨t, r, r', hout', hopen, hbang, hstop⟩ := h
  exact ⟨t, r, r', hout.trans hout', hopen, hbang, hstop⟩

theorem Delivers.length_lt (h : Delivers t c rest) : rest.length < t.length := by
  obtain ⟨-, -, skipped, -, rfl⟩ := h
  rw [List.length_append, List.length_cons]
  omega

theorem Outside.length_le (h : Outside text t) : t.length ≤ text.length := by
  induction h with
  | start => exact le_rfl
  | skipped _ _ ih =>
    rw [List.length_append] at ih
    omega
  | char _ hc ih => exact hc.length_lt.le.trans ih

theorem Hides.length_lt (h : Hides text stop) : stop.length < text.length := by
  obtain ⟨t, r, r', hout, hopen, hbang, hstop⟩ := h
  have hle := hstop.length_le
  exact hle.trans_lt (hbang.length_lt.trans (hopen.length_lt.trans_le hout.length_le))

/-- What an action leaves to read begins outside of the comments. -/
theorem outside_left {f : Frame} {next : Option Char} (h : Outside text t) (hc : Delivers t c rest)
    (hnext : ∀ d, next = some d → rest.head? = some d) :
    Outside text ((handle f false c next).left c rest) := by
  have hrest : Outside text rest := h.char hc
  have hput : Outside text (c :: rest) := by
    obtain ⟨-, -, skipped, hskipped, rfl⟩ := hc
    exact h.skipped hskipped
  have htail : ∀ {d}, next = some d → d ≠ '\n' ∧ d ≠ '<' → Outside text rest.tail := by
    intro d hmark hd
    obtain ⟨ds, rfl⟩ := List.head?_eq_some_iff.mp (hnext d hmark)
    exact hrest.char (delivers_cons hd ds)
  cases ha : handle f false c next with
  | consume g =>
    rcases handle_consume_mark ha with hmark | hmark
    · exact htail hmark (by decide)
    · exact htail hmark (by decide)
  | consumeFinish node => exact htail (handle_consumeFinish ha) (by decide)
  | unget g => exact hput
  | enter g => exact hput
  | _ => exact hrest

end Outside

section Cleanness

variable {text stop left rest cs : List Char} {f g : Frame} {ps : List Frame} {c : Char}
  {next : Option Char} {node node' : XMLNode} {o : Progress (List Char)} {cfg : Config (List Char)}

theorem clean_congr (h : Everywhere Clean node) (hattributes : node'.attributes = node.attributes)
    (hchildren : ∀ child ∈ node'.children, child ∈ node.children) : Everywhere Clean node' := by
  refine .mk ?_ fun child hchild => h.children child (hchildren child hchild)
  rw [Clean, hattributes]
  exact h.root

theorem command_concat (h : Command (cs ++ [c])) :
    Command cs ∨ c = '!' ∧ cs.getLast? = some '<' := by
  rw [Command, List.infix_concat_iff] at h
  rcases h with ⟨ds, hds⟩ | h
  · right
    have hsplit : ds ++ ['<'] ++ ['!'] = cs ++ [c] := by
      rw [← hds]
      simp
    obtain ⟨rfl, hc⟩ := List.append_inj' hsplit rfl
    exact ⟨(List.cons.inj hc).1.symm, by simp⟩
  · exact .inl h

/-- Nothing that a call has read begins a comment; if the value that is read ends in a bracket, then
the text that has been read does. -/
structure Frame.Unmarked (text : List Char) (f : Frame) (left : List Char) : Prop where
  node : Everywhere Clean f.node
  value : f.state = .attrValue → f.inLoop = true → ¬ Command f.attrValue.toList
  last : f.state = .attrValue → f.inLoop = true → f.attrValue.toList.getLast? = some '<' →
    ∃ t, Outside text t ∧ Delivers t '<' left

def Progress.Unmarked (text : List Char) : Progress (List Char) → Prop
  | .running cfg => Outside text cfg.reader ∧ cfg.frame.Unmarked text cfg.reader ∧
      ∀ p ∈ cfg.parents, Everywhere Clean p.node
  | .done node _ => Everywhere Clean node
  | .failed _ _ => True

theorem unmarked_of_node (h : Everywhere Clean f.node)
    (hvalue : f.inLoop = true → f.state ≠ .attrValue) : f.Unmarked text left where
  node := h
  value hstate hloop := absurd hstate (hvalue hloop)
  last hstate hloop := absurd hstate (hvalue hloop)

/-- What an action makes of a call with nothing that begins a comment. -/
def Action.Unmarked (text left : List Char) : Action → Prop
  | .stay g => { g with inLoop := true : Frame }.Unmarked text left
  | .goto g => Everywhere Clean g.node
  | .consume g => Everywhere Clean g.node
  | .unget g => Everywhere Clean g.node
  | .enter g => Everywhere Clean g.node
  | .finish node => Everywhere Clean node
  | .consumeFinish node => Everywhere Clean node
  | .fail _ => True

theorem unmarked_of_keeps {a : Action} (ha : a.Keeps f) (h : Everywhere Clean f.node)
    (hvalue : f.state ≠ .attrValue) : a.Unmarked text left := by
  have hkeeps : ∀ g, f.Keeps g → Everywhere Clean g.node := by
    intro g hg
    have hsame : g.node.children = f.node.children := hg.children
    exact clean_congr h hg.attributes fun child hchild => hsame ▸ hchild
  cases a with
  | stay g =>
    obtain ⟨hg, hstate⟩ := ha
    exact unmarked_of_node (hkeeps g hg) fun _ => hstate.trans_ne hvalue
  | goto g => exact hkeeps g ha
  | consume g => exact hkeeps g ha
  | unget g => exact hkeeps g ha
  | enter g => exact ha.1 ▸ h
  | finish node => exact ha ▸ h
  | consumeFinish node =>
    obtain ⟨hattributes, hchildren, -⟩ := ha
    exact clean_congr h hattributes fun child hchild => by simp [hchildren] at hchild
  | fail message => trivial

/-- A `!` behind a `<` in a value is one that is hidden. -/
theorem unmarked_attrValue (hstate : f.state = .attrValue) (h : f.Unmarked text left)
    (hout : Outside text left) (hc : Delivers left c rest) (hstop : stop <:+ rest)
    (hno : ¬ Hides text stop) : (attrValue f false c).Unmarked text rest := by
  have hclean : ¬ Command f.clearedValue.attrValue.toList ∧
      (f.clearedValue.attrValue.toList.getLast? = some '<' →
        ∃ t, Outside text t ∧ Delivers t '<' left) := by
    rw [Frame.clearedValue]
    split_ifs with hloop
    · exact ⟨h.value hstate hloop, h.last hstate hloop⟩
    · exact ⟨by simp [Command], by simp⟩
  have hnode : Everywhere Clean f.clearedValue.node := by
    rw [clearedValue_eq]
    exact h.node
  rw [attrValue_eq]
  generalize f.clearedValue = g at hclean hnode ⊢
  obtain ⟨hcommand, hlast⟩ := hclean
  split_ifs
  · refine ⟨hnode, fun _ _ => ?_, fun _ _ hopen => ?_⟩
    · rw [String.toList_push]
      intro hpush
      obtain ⟨rfl, hopen⟩ := (command_concat hpush).resolve_left hcommand
      obtain ⟨t, ht, hdelivers⟩ := hlast hopen
      exact hno ⟨t, left, rest, ht, hdelivers, hc, hstop⟩
    · rw [String.toList_push, List.getLast?_concat, Option.some.injEq] at hopen
      exact ⟨left, hout, hopen ▸ hc⟩
  · refine .mk ?_ hnode.children
    change ∀ attr ∈ g.attributes ++ [_], _
    rw [List.forall_mem_append, List.forall_mem_singleton]
    exact ⟨hnode.root, hcommand⟩
  · trivial

theorem unmarked_leave (h : Everywhere Clean node) (hps : ∀ p ∈ ps, Everywhere Clean p.node)
    (hout : Outside text rest) : (leave node rest ps).Unmarked text := by
  cases ps with
  | nil => exact h
  | cons p ps =>
    rw [List.forall_mem_cons] at hps
    refine ⟨hout, unmarked_of_node (.mk hps.1.root ?_) (by simp), hps.2⟩
    change ∀ child ∈ p.children ++ [node], _
    rw [List.forall_mem_append, List.forall_mem_singleton]
    exact ⟨hps.1.children, h⟩

theorem clean_start : Everywhere Clean ({} : Frame).node := by
  refine .mk ?_ ?_
  all_goals exact fun x hx => absurd hx List.not_mem_nil

theorem unmarked_perform {a : Action} (h : a.Unmarked text rest)
    (hps : ∀ p ∈ ps, Everywhere Clean p.node) (hout : Outside text (a.left c rest)) :
    (perform List.tail List.cons c rest ps a).Unmarked text := by
  have hgoto : ∀ {g : Frame} {left}, Everywhere Clean g.node →
      { g with inLoop := false : Frame }.Unmarked text left :=
    fun hg => unmarked_of_node hg (by simp)
  cases a with
  | stay g => exact ⟨hout, h, hps⟩
  | goto g => exact ⟨hout, hgoto h, hps⟩
  | consume g => exact ⟨hout, hgoto h, hps⟩
  | unget g => exact ⟨hout, hgoto h, hps⟩
  | enter g =>
    exact ⟨hout, unmarked_of_node clean_start (by simp), List.forall_mem_cons.mpr ⟨h, hps⟩⟩
  | finish node => exact unmarked_leave h hps hout
  | consumeFinish node => exact unmarked_leave h hps hout
  | fail message => trivial

theorem unmarked_moves (move : Moves cfg o) (h : (Progress.running cfg).Unmarked text)
    (hstop : stop <:+ o.reader) (hno : ¬ Hides text stop) : o.Unmarked text := by
  obtain ⟨c, rest, next, hdelivers, hnext, rfl⟩ := move.exists_action
  obtain ⟨hout, hframe, hps⟩ := h
  refine unmarked_perform ?_ hps (outside_left hout hdelivers hnext)
  by_cases hstate : cfg.frame.state = .attrValue
  · rw [perform_reader_eq] at hstop
    have hhandle : handle cfg.frame false c next = attrValue cfg.frame false c ∨
        ∃ message, handle cfg.frame false c next = .fail message := by
      rw [handle, hstate]
      split_ifs
      · exact .inr ⟨_, rfl⟩
      · exact .inl rfl
    rcases hhandle with ha | ⟨message, ha⟩
    · have hleft : (attrValue cfg.frame false c).left c rest = rest := by
        rw [attrValue_eq]
        split_ifs <;> rfl
      rw [ha] at hstop ⊢
      exact unmarked_attrValue hstate hframe hout hdelivers (hleft ▸ hstop) hno
    · rw [ha]
      trivial
  · exact unmarked_of_keeps (handle_keeps hstate) hframe.node hstate

/-- A document in which nothing is hidden has only values that begin no comment. -/
theorem clean_of_not_hides (h : Accepts cfg node stop) (hcfg : (Progress.running cfg).Unmarked text)
    (hno : ¬ Hides text stop) : Everywhere Clean node := by
  refine h.invariant (P := fun o => stop <:+ o.reader → o.Unmarked text) ?_ (fun _ => hcfg)
    (List.suffix_refl _)
  intro cfg o move hrunning hstop
  exact unmarked_moves move (hrunning (hstop.trans move.suffix)) hstop hno

end Cleanness

section Marking

variable {t stop rest rest' : List Char} {f : Frame} {ps : List Frame} {c : Char}
  {next : Option Char} {node : XMLNode} {a : Action} {o : Progress (List Char)}
  {cfg : Config (List Char)}

/-- Something that a call has read begins a comment. -/
def Frame.Marked (f : Frame) : Prop :=
  ¬ Clean f.node ∨ (f.state = .attrValue ∧ f.inLoop = true ∧ Command f.attrValue.toList) ∨
    f.Inner ∧ ∃ child ∈ f.children, ¬ Everywhere Clean child

def Action.Marked : Action → Prop
  | .stay g => { g with inLoop := true : Frame }.Marked
  | .goto g => { g with inLoop := false : Frame }.Marked
  | .consume g => { g with inLoop := false : Frame }.Marked
  | .unget g => { g with inLoop := false : Frame }.Marked
  | .enter g => g.Marked
  | .finish node => ¬ Everywhere Clean node
  | .consumeFinish node => ¬ Everywhere Clean node
  | .fail _ => True

def Progress.Marked : Progress (List Char) → Prop
  | .running cfg => (∀ p ∈ cfg.parents, p.state = .body) ∧
      (cfg.frame.Marked ∨ ∃ p ∈ cfg.parents, p.Marked)
  | .done node _ => ¬ Everywhere Clean node
  | .failed _ _ => True

theorem marked_of_keeps (ha : a.Keeps f) (h : f.Marked) (hvalue : f.state ≠ .attrValue) :
    a.Marked := by
  have hkept : ¬ Clean f.node ∨ f.Inner ∧ ∃ child ∈ f.children, ¬ Everywhere Clean child :=
    h.imp_right fun h => h.resolve_left fun hread => hvalue hread.1
  have hkeeps : ∀ g b, f.Keeps g → { g with inLoop := b : Frame }.Marked := by
    intro g b hg
    rcases hkept with hclean | ⟨hinner, hchild⟩
    · left
      rw [Clean] at hclean ⊢
      exact hg.attributes ▸ hclean
    · exact .inr (.inr ⟨hg.inner hinner, hg.children ▸ hchild⟩)
  cases a with
  | stay g => exact hkeeps g true ha.1
  | goto g => exact hkeeps g false ha
  | consume g => exact hkeeps g false ha
  | unget g => exact hkeeps g false ha
  | enter g => exact ha.1 ▸ h
  | finish node =>
    cases ha
    intro heverywhere
    rcases hkept with hclean | ⟨-, child, hchild, hdirty⟩
    · exact hclean heverywhere.root
    · exact hdirty (heverywhere.children child hchild)
  | consumeFinish node =>
    obtain ⟨hattributes, -, hinner⟩ := ha
    have hclean := hkept.resolve_right fun h => hinner h.1
    intro heverywhere
    have hroot : ∀ attr ∈ node.attributes, ¬ Command attr.2.toList := heverywhere.root
    rw [hattributes] at hroot
    exact hclean hroot
  | fail message => trivial

theorem marked_attrValue (hstate : f.state = .attrValue) (h : f.Marked) :
    (attrValue f false c).Marked := by
  have hkept : ¬ Clean f.clearedValue.node ∨ Command f.clearedValue.attrValue.toList := by
    rcases h with hclean | ⟨-, hloop, hcommand⟩ | ⟨hinner, -⟩
    · left
      rw [clearedValue_eq]
      exact hclean
    · right
      rwa [Frame.clearedValue, if_pos hloop]
    · simp [Frame.Inner, hstate] at hinner
  have hkeptState : f.clearedValue.state = .attrValue := by rw [clearedValue_eq, hstate]
  rw [attrValue_eq]
  generalize f.clearedValue = g at hkept hkeptState ⊢
  split_ifs
  · refine hkept.imp id fun hcommand => .inl ⟨hkeptState, rfl, ?_⟩
    rw [String.toList_push]
    exact hcommand.trans (List.prefix_append _ _).isInfix
  · left
    intro hclean
    have hall : ∀ attr ∈ g.attributes ++ [(g.attrKey, g.attrValue)], ¬ Command attr.2.toList :=
      hclean
    rw [List.forall_mem_append, List.forall_mem_singleton] at hall
    exact hkept.elim (fun hnot => hnot hall.1) hall.2
  · trivial

theorem marked_handle (h : f.Marked) : (handle f false c next).Marked := by
  by_cases hstate : f.state = .attrValue
  · rw [handle]
    split_ifs
    · trivial
    · rw [hstate]
      exact marked_attrValue hstate h
  · exact marked_of_keeps (handle_keeps hstate) h hstate

theorem marked_leave (hps : ∀ p ∈ ps, p.state = .body)
    (h : ¬ Everywhere Clean node ∨ ∃ p ∈ ps, p.Marked) : (leave node rest ps).Marked := by
  cases ps with
  | nil =>
    refine h.resolve_right ?_
    rintro ⟨p, hp, -⟩
    exact List.not_mem_nil hp
  | cons p ps =>
    rw [List.forall_mem_cons] at hps
    refine ⟨hps.2, ?_⟩
    have hdirty : ∀ child, child ∈ p.children ++ [node] → ¬ Everywhere Clean child →
        { p with children := p.children ++ [node], inLoop := false : Frame }.Marked :=
      fun child hchild hnot => .inr (.inr ⟨.inl hps.1, child, hchild, hnot⟩)
    rcases h with hnode | ⟨q, hq, hmarked⟩
    · exact .inl (hdirty node (List.mem_append_right _ List.mem_cons_self) hnode)
    rcases List.mem_cons.mp hq with rfl | hq
    · left
      rcases hmarked with hclean | ⟨hvalue, -⟩ | ⟨-, child, hchild, hnot⟩
      · exact .inl hclean
      · rw [hps.1] at hvalue
        cases hvalue
      · exact hdirty child (List.mem_append_left _ hchild) hnot
    · exact .inr ⟨q, hq, hmarked⟩

theorem body_of_enter {g : Frame} (ha : handle f false c next = .enter g) : g.state = .body := by
  have hstate := (handle_enter ha).1
  have hkeeps : (handle f false c next).Keeps f := handle_keeps (by simp [hstate])
  rw [ha] at hkeeps
  rw [hkeeps.1, hstate]

theorem marked_perform (hps : ∀ p ∈ ps, p.state = .body)
    (henter : ∀ g, a = .enter g → g.state = .body) (h : a.Marked ∨ ∃ p ∈ ps, p.Marked) :
    (perform List.tail List.cons c rest ps a).Marked := by
  cases a with
  | finish node => exact marked_leave hps h
  | consumeFinish node => exact marked_leave hps h
  | enter g =>
    refine ⟨List.forall_mem_cons.mpr ⟨henter g rfl, hps⟩, .inr ?_⟩
    rcases h with hg | ⟨p, hp, hmarked⟩
    · exact ⟨g, List.mem_cons_self, hg⟩
    · exact ⟨p, List.mem_cons_of_mem g hp, hmarked⟩
  | fail message => trivial
  | _ => exact ⟨hps, h⟩

theorem marked_moves (move : Moves cfg o) (h : (Progress.running cfg).Marked) : o.Marked := by
  obtain ⟨c, rest, -, -, rfl⟩ := move
  exact marked_perform h.1 (fun g => body_of_enter) (h.2.imp_left marked_handle)

/-- What begins a comment stays in the document. -/
theorem marked_accepts (h : Accepts cfg node rest) (hcfg : (Progress.running cfg).Marked) :
    ¬ Everywhere Clean node := by
  exact h.invariant (P := Progress.Marked) (fun _ _ => marked_moves) hcfg

/-- What is hidden is still to be read after an action, unless its bracket is what has been read. -/
theorem hides_left (h : Hides t stop) (hc : Delivers t c rest) (ha : handle f false c next = a)
    (hnext : ∀ d, next = some d → rest.head? = some d) :
    Hides (a.left c rest) stop ∨
      c = '<' ∧ (∃ rest', Delivers rest '!' rest' ∧ stop <:+ rest') ∧ a.left c rest = rest := by
  have htail : ∀ {d}, next = some d → d ≠ '\n' ∧ d ≠ '<' ∧ d ≠ '!' → Hides rest.tail stop := by
    intro d hmark hd
    obtain ⟨ds, rfl⟩ := List.head?_eq_some_iff.mp (hnext d hmark)
    have hmarked := delivers_cons ⟨hd.1, hd.2.1⟩ ds
    rcases h.first hc with ⟨-, rest', hbang, -⟩ | hlater
    · exact absurd (hbang.unique hmarked).1.symm hd.2.2
    · exact (hlater.first hmarked).resolve_left fun hopen => hd.2.1 hopen.1
  have hput : Hides (c :: rest) stop := by
    have hdelivers : Delivers (c :: rest) c rest := by
      obtain ⟨hnewline, hopen, -⟩ := hc
      exact ⟨hnewline, hopen, [], .nil, rfl⟩
    rcases h.first hc with ⟨rfl, rest', hbang, hstop⟩ | hlater
    · exact ⟨_, _, _, .start, hdelivers, hbang, hstop⟩
    · exact hlater.of_outside (.char .start hdelivers)
  cases a with
  | consume g =>
    rcases handle_consume_mark ha with hmark | hmark
    · exact .inl (htail hmark (by decide))
    · exact .inl (htail hmark (by decide))
  | consumeFinish node => exact .inl (htail (handle_consumeFinish ha) (by decide))
  | unget g => exact .inl hput
  | enter g => exact .inl hput
  | _ =>
    rcases h.first hc with ⟨hopen, hbang⟩ | hlater
    · exact .inr ⟨hopen, hbang, rfl⟩
    · exact .inl hlater

/-- A bracket that is neither put back nor consumed begins a tag, or belongs to a value. -/
theorem handle_open (ha : handle f false '<' next = a) (hleft : a.left '<' rest = rest) :
    rest = [] ∨ (∃ message, a = .fail message) ∨ (∃ g, a = .goto g ∧ g.state = .openTagKey) ∨
      ∃ g, a = .stay g ∧ g.state = .attrValue ∧ g.attrValue.toList.getLast? = some '<' := by
  have hspace : isSpace '<' = false := by decide
  have hname : isNameChar '<' = false := by decide
  have halnum : '<'.isAlphanum = false := by decide
  rw [handle_of_ne (by decide)] at ha
  cases hstate : f.state with
  | initial =>
    simp only [hstate, initial, hspace] at ha
    exact .inr (.inr (.inl ⟨_, ha.symm, rfl⟩))
  | openTagKey =>
    simp only [hstate, openTagKey, hname] at ha
    rw [← ha] at hleft
    exact absurd hleft (List.cons_ne_self _ _)
  | openTagAttr =>
    simp [hstate, openTagAttr, hspace, halnum] at ha
    exact .inr (.inl ⟨_, ha.symm⟩)
  | body =>
    by_cases hnext : next = some '/'
    · simp [hstate, body, hnext] at ha
      rw [← ha, Action.left] at hleft
      left
      by_contra hne
      have hlength := congrArg List.length hleft
      have hpos := List.length_pos_of_ne_nil hne
      rw [List.length_tail] at hlength
      omega
    · simp [hstate, body, hnext] at ha
      rw [← ha] at hleft
      exact absurd hleft (List.cons_ne_self _ _)
  | closeTag =>
    simp [hstate, closeTag, hname] at ha
    exact .inr (.inl ⟨_, ha.symm⟩)
  | attrKey =>
    simp only [hstate] at ha
    rw [attrKey_eq] at ha
    simp only [hname, Char.reduceEq, false_and, Bool.false_eq_true, if_false] at ha
    split_ifs at ha
    · exact .inr (.inl ⟨_, ha.symm⟩)
    · exact .inr (.inl ⟨_, ha.symm⟩)
  | attrValue =>
    simp only [hstate] at ha
    rw [attrValue_eq, if_pos ⟨by decide, by decide⟩] at ha
    refine .inr (.inr (.inr ⟨_, ha.symm, ?_, by simp⟩))
    rw [clearedValue_eq, hstate]

/-- What is hidden is read later on, unless its bracket has been read and its mark comes next. -/
theorem hides_moves (move : Moves cfg o) (h : Hides cfg.reader stop) :
    Hides o.reader stop ∨ (∃ message r, o = .failed message r) ∨
      ∃ cfg' rest, o = .running cfg' ∧ Delivers cfg'.reader '!' rest ∧
        (cfg'.frame.state = .openTagKey ∨ cfg'.frame.state = .attrValue ∧
          cfg'.frame.inLoop = true ∧ cfg'.frame.attrValue.toList.getLast? = some '<') := by
  obtain ⟨c, rest, next, hdelivers, hnext, rfl⟩ := move.exists_action
  rw [perform_reader_eq]
  refine (hides_left h hdelivers rfl hnext).imp_right ?_
  rintro ⟨rfl, ⟨rest', hbang, -⟩, hleft⟩
  rcases handle_open rfl hleft with rfl | ⟨message, ha⟩ | ⟨g, ha, hstate⟩ | ⟨g, ha, hstate, hlast⟩
  · exact absurd hbang not_delivers_nil
  · exact .inl ⟨message, rest, by rw [ha]; rfl⟩
  · rw [ha]
    exact .inr ⟨⟨rest, { g with inLoop := false }, cfg.parents⟩, rest', rfl, hbang, .inl hstate⟩
  · rw [ha]
    exact .inr ⟨⟨rest, { g with inLoop := true }, cfg.parents⟩, rest', rfl, hbang,
      .inr ⟨hstate, rfl, hlast⟩⟩

/-- A `!` in a value behind a `<` begins a comment. -/
theorem not_clean_of_bang (h : Accepts ⟨t, f, ps⟩ node stop) (hps : ∀ p ∈ ps, p.state = .body)
    (hbang : Delivers t '!' rest) (hstate : f.state = .attrValue) (hloop : f.inLoop = true)
    (hlast : f.attrValue.toList.getLast? = some '<') : ¬ Everywhere Clean node := by
  have hstay : handle f false '!' none = .stay { f with attrValue := f.attrValue.push '!' } := by
    rw [handle_attrValue hstate (by decide), attrValue_eq, if_pos ⟨by decide, by decide⟩,
      Frame.clearedValue, if_pos hloop]
  rw [accepts_stay hbang (by simp [looks]) hstay] at h
  refine marked_accepts h ⟨hps, .inl (.inr (.inl ⟨hstate, rfl, ?_⟩))⟩
  obtain ⟨cs, hcs⟩ := List.getLast?_eq_some_iff.mp hlast
  exact ⟨cs, [], by simp [hcs]⟩

/-- What is hidden in the text that is read begins a comment in the document. -/
theorem not_clean_of_hides (h : Accepts cfg node stop) (hcfg : (Progress.running cfg).Sound)
    (hhides : Hides cfg.reader stop) : ¬ Everywhere Clean node := by
  induction h with
  | last move =>
    rcases hides_moves move hhides with hlater | ⟨message, r, hfail⟩ | ⟨cfg', rest, ho, -⟩
    · exact absurd hlater.length_lt (Nat.lt_irrefl _)
    · cases hfail
    · cases ho
  | next move hrun ih =>
    have hsound := sound_moves move hcfg
    rcases hides_moves move hhides with hlater | ⟨message, r, hfail⟩ |
      ⟨⟨t, f, ps⟩, rest, ho, hbang, hstate | ⟨hstate, hloop, hlast⟩⟩
    · exact ih hsound hlater
    · cases hfail
    · -- the bracket begins a tag, and its name does not begin with the mark
      cases ho
      rw [accepts_behindTagName hstate hbang (by decide)] at hrun
      exact absurd hrun (not_accepts_other rfl hbang (by decide) (by decide) (by decide))
    · -- the bracket and the mark come together in a value
      cases ho
      exact not_clean_of_bang hrun (fun p hp => (hsound.2 p hp).1) hbang hstate hloop hlast

end Marking

section RoundTrip

variable {text : List Char} {node : XMLNode} {r : Reader}

theorem printAll_eq (nodes : List XMLNode) : printAll nodes = nodes.flatMap print := by
  induction nodes with
  | nil => rfl
  | cons node nodes ih => rw [printAll, ih, List.flatMap_cons]

/-- Where the value of an attribute begins a comment, so does what is printed. -/
theorem clean_of_print (h : ¬ Command (print node)) : Everywhere Clean node := by
  induction node using node_induction with
  | h node ih =>
    obtain ⟨name, attributes, value, children⟩ := node
    refine .mk (fun attr hattr hcommand => h ?_)
      fun child hchild => ih child hchild fun hcommand => h ?_
    · have hvalue : attr.2.toList <:+: printAttribute attr :=
        ⟨' ' :: (attr.1.toList ++ ['=', '"']), ['"'], by simp [printAttribute]⟩
      have hattributes : attributes.flatMap printAttribute <:+:
          print ⟨name, attributes, value, children⟩ :=
        ⟨'<' :: name.toList, content ⟨name, attributes, value, children⟩ [],
          by rw [← List.append_nil (print _), print_append]; simp⟩
      have hmember : printAttribute attr <:+: attributes.flatMap printAttribute :=
        List.infix_of_mem_flatten (List.mem_map_of_mem hattr)
      exact hcommand.trans (hvalue.trans (hmember.trans hattributes))
    · have hchildren : printAll children <:+: print ⟨name, attributes, value, children⟩ :=
        ⟨'<' :: (name.toList ++ (attributes.flatMap printAttribute ++ '>' :: value.toList)),
          closing name [], by simp [print, closing]⟩
      have hmember : print child <:+: printAll children := by
        rw [printAll_eq]
        exact List.infix_of_mem_flatten (List.mem_map_of_mem hchild)
      exact hcommand.trans (hmember.trans hchildren)

/-- A document is read again as it was exactly if no bracket and mark are hidden in its text. -/
theorem reparse_iff (h : parse text = .ok (node, r)) :
    (∃ r', parse (print node) = .ok (node, r')) ↔ ¬ Hides text r.rest := by
  have haccepts : Accepts ⟨text, {}, []⟩ node r.rest :=
    (parse_ok_iff text node r.rest).mp ⟨r, h, rfl⟩
  constructor
  · rintro ⟨r', hparse⟩ hhides
    have hdirty := not_clean_of_hides haccepts ⟨sound_start, fun _ hp => absurd hp List.not_mem_nil⟩
      hhides
    refine hdirty (clean_of_print fun hcommand => ?_)
    exact not_accepts_print hcommand ((parse_ok_iff _ node r'.rest).mp ⟨r', hparse, rfl⟩)
  · intro hno
    have hclean : Everywhere Clean node := by
      refine clean_of_not_hides haccepts ⟨.start, ?_, fun _ hp => absurd hp List.not_mem_nil⟩ hno
      exact unmarked_of_node clean_start (by simp)
    have hread : Accepts ⟨print node ++ [], {}, []⟩ node [] :=
      (readsBack (printable_of_accepts haccepts) hclean [] [] node []).mpr (.inl rfl)
    rw [List.append_nil] at hread
    obtain ⟨r', hparse, -⟩ := (parse_ok_iff _ node []).mpr hread
    exact ⟨r', hparse⟩

/-- A rule with an attribute and two children. -/
def smallRule : XMLNode where
  name := "rule"
  attributes := [("id", "1")]
  children := [{ name := "regex", value := "a!b" }, { name := "log" }]

/-- It is written with a comment, and with a bracket and a mark in it that are not hidden. -/
def smallText : List Char := "<rule\tid=\"1\">\n<!-- < --><regex>a!b</regex><log/></rule>\n".toList

theorem reparse_iff_smallRule : ∃ r, parse smallText = .ok (smallRule, r) ∧
    ((∃ r', parse (print smallRule) = .ok (smallRule, r')) ↔ ¬ Hides smallText r.rest) ∧
      ¬ Hides smallText r.rest := by
  have hread : ∃ r, parse smallText = .ok (smallRule, r) := ⟨_, rfl⟩
  have hreread : ∃ r', parse (print smallRule) = .ok (smallRule, r') := ⟨_, rfl⟩
  obtain ⟨r, hr⟩ := hread
  exact ⟨r, hr, reparse_iff hr, (reparse_iff hr).mp hreread⟩

def withValue (value : String) : XMLNode := { name := "a", attributes := [("b", value)] }

/-- A value that is printed as a comment is lost when it is read. -/
theorem hidden_not_reparsed :
    (∃ r, parse "<a b=\"<\n!-- x -->\"></a>".toList = .ok (withValue "<!-- x -->", r)) ∧
      (∃ r, parse (print (withValue "<!-- x -->")) = .ok (withValue "", r)) ∧
      ¬ ∃ r, parse (print (withValue "<!-- x -->")) = .ok (withValue "<!-- x -->", r) := by
  have hread : ∃ r, parse (print (withValue "<!-- x -->")) = .ok (withValue "", r) := ⟨_, rfl⟩
  refine ⟨⟨_, rfl⟩, hread, ?_⟩
  rintro ⟨r', hparse⟩
  obtain ⟨r, hread⟩ := hread
  rw [hread] at hparse
  simp [withValue] at hparse

end RoundTrip

end Ctguard.XML
