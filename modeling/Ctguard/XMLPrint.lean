import Ctguard.XMLLineBreaks
import Mathlib.Data.List.Nodup

/-!
# Printing a document

`operator<<` writes a node as it is, with nothing escaped. Of a node that the parser has built, the
names consist of name characters, the keys are distinct and start with a letter or a digit, and the
values and texts are printable and contain no character that ends them.
-/

namespace Ctguard.XML

section Printing

def printAttribute (attr : String × String) : List Char :=
  ' ' :: (attr.1.toList ++ '=' :: '"' :: (attr.2.toList ++ ['"']))

mutual

/-- What `operator<<` writes. -/
def print : XMLNode → List Char
  | ⟨name, attributes, value, children⟩ =>
    '<' :: (name.toList ++ (attributes.flatMap printAttribute ++ '>' ::
      (value.toList ++ (printAll children ++ '<' :: '/' :: (name.toList ++ ['>'])))))

def printAll : List XMLNode → List Char
  | [] => []
  | node :: nodes => print node ++ printAll nodes

end

/-- What holds of a node if it does whenever it holds of the children. -/
theorem node_induction {P : XMLNode → Prop}
    (h : ∀ node, (∀ child ∈ node.children, P child) → P node) (node : XMLNode) : P node := by
  refine @XMLNode.rec P (fun nodes => ∀ child ∈ nodes, P child) ?_ ?_ ?_ node
  · exact fun name attributes value children ih => h ⟨name, attributes, value, children⟩ ih
  · exact fun child hchild => absurd hchild List.not_mem_nil
  · exact fun node nodes hnode hnodes => List.forall_mem_cons.mpr ⟨hnode, hnodes⟩

/-- The node and all below it satisfy a property. -/
inductive Everywhere (Q : XMLNode → Prop) : XMLNode → Prop
  | mk {node : XMLNode} (root : Q node) (children : ∀ child ∈ node.children, Everywhere Q child) :
      Everywhere Q node

theorem Everywhere.root {Q : XMLNode → Prop} {node : XMLNode} (h : Everywhere Q node) :
    Q node := by
  cases h with
  | mk root children => exact root

theorem Everywhere.children {Q : XMLNode → Prop} {node : XMLNode} (h : Everywhere Q node) :
    ∀ child ∈ node.children, Everywhere Q child := by
  cases h with
  | mk root children => exact children

/-- The name of an attribute starts with a letter or a digit. -/
def IsKey (key : String) : Prop :=
  ∃ c cs, key.toList = c :: cs ∧ c.isAlphanum = true ∧ ∀ d ∈ cs, isNameChar d = true

def InValue (c : Char) : Prop := isPrint c = true ∧ c ≠ '"'

def InText (c : Char) : Prop := isPrint c = true ∧ c ≠ '<'

/-- A node as the parser builds it. -/
structure Printable (node : XMLNode) : Prop where
  name : ∀ c ∈ node.name.toList, isNameChar c = true
  keys : ∀ attr ∈ node.attributes, IsKey attr.1
  values : ∀ attr ∈ node.attributes, ∀ c ∈ attr.2.toList, InValue c
  distinct : (node.attributes.map Prod.fst).Nodup
  value : ∀ c ∈ node.value.toList, InText c

end Printing

section Parsed

/-- What holds of a running call in front of a text. -/
structure Frame.Sound (f : Frame) (text : List Char) : Prop where
  node : Everywhere Printable f.node
  first : f.state = .attrKey → f.inLoop = false → ∃ c cs, text = c :: cs ∧ c.isAlphanum = true
  key : f.state = .attrKey → f.inLoop = true → IsKey f.attrKey
  assigned : f.state = .attrValue → IsKey f.attrKey ∧ f.attrKey ∉ f.attributes.map Prod.fst
  quoted : f.state = .attrValue → f.inLoop = true → ∀ c ∈ f.attrValue.toList, InValue c

/-- What holds of a call that waits for a child. -/
def Frame.Waiting (f : Frame) : Prop := f.state = .body ∧ Everywhere Printable f.node

/-- What an action makes of a sound call. -/
def Action.Sound (c : Char) (rest : List Char) : Action → Prop
  | .stay f => { f with inLoop := true : Frame }.Sound rest
  | .goto f => { f with inLoop := false : Frame }.Sound rest
  | .consume f => { f with inLoop := false : Frame }.Sound rest.tail
  | .unget f => { f with inLoop := false : Frame }.Sound (c :: rest)
  | .enter f => f.Waiting
  | .finish node => Everywhere Printable node
  | .consumeFinish node => Everywhere Printable node
  | .fail _ => True

variable {f : Frame} {c : Char} {next : Option Char} {text rest : List Char} {node : XMLNode}

theorem everywhere_congr {node' : XMLNode} (h : Everywhere Printable node) (hroot : Printable node')
    (hchildren : node'.children = node.children) : Everywhere Printable node' :=
  .mk hroot fun child hchild => h.children child (hchildren ▸ hchild)

/-- A call that neither reads a key nor a value is sound if its node is. -/
theorem sound_of_node (hnode : Everywhere Printable f.node) (hkey : f.state ≠ .attrKey)
    (hvalue : f.state ≠ .attrValue) : f.Sound text :=
  ⟨hnode, fun h => absurd h hkey, fun h => absurd h hkey, fun h => absurd h hvalue,
    fun h => absurd h hvalue⟩

theorem sound_initial (h : Everywhere Printable f.node) (hstate : f.state = .initial) :
    (initial f false c).Sound c rest := by
  rw [initial]
  split_ifs
  · exact sound_of_node h (by simp [hstate]) (by simp [hstate])
  · exact sound_of_node h (by simp) (by simp)
  · trivial

theorem sound_openTagKey (h : Everywhere Printable f.node) (hstate : f.state = .openTagKey) :
    (openTagKey f c).Sound c rest := by
  rw [openTagKey]
  split_ifs with hc
  · refine sound_of_node (everywhere_congr h ?_ rfl) (by simp [hstate]) (by simp [hstate])
    refine ⟨?_, h.root.keys, h.root.values, h.root.distinct, h.root.value⟩
    simp only [Frame.node, String.toList_push, List.forall_mem_append, List.forall_mem_singleton]
    exact ⟨h.root.name, hc⟩
  · exact sound_of_node h (by simp) (by simp)

theorem sound_body (h : Everywhere Printable f.node) (hstate : f.state = .body) :
    (body f false c next).Sound c rest := by
  rw [body]
  split
  case isTrue hc =>
    by_cases htab : c = '\t'
    · rw [if_neg (not_not_intro htab)]
      exact sound_of_node h (by simp [hstate]) (by simp [hstate])
    · rw [if_pos htab]
      refine sound_of_node (everywhere_congr h ?_ rfl) (by simp [hstate]) (by simp [hstate])
      refine ⟨h.root.name, h.root.keys, h.root.values, h.root.distinct, ?_⟩
      simp only [Frame.node, String.toList_push, List.forall_mem_append,
        List.forall_mem_singleton]
      refine ⟨h.root.value, ?_⟩
      simpa [InText, htab, and_comm] using hc
  split
  · exact sound_of_node h (by simp) (by simp)
  split
  · exact ⟨hstate, h⟩
  · trivial

theorem sound_closeTag (h : Everywhere Printable f.node) (hstate : f.state = .closeTag) :
    (closeTag f false c).Sound c rest := by
  rw [closeTag]
  split_ifs
  · exact sound_of_node h (by simp [hstate]) (by simp [hstate])
  · trivial
  · exact h
  · trivial

theorem sound_openTagAttr (h : Everywhere Printable f.node) (hstate : f.state = .openTagAttr) :
    (openTagAttr f false c next).Sound c rest := by
  rw [openTagAttr]
  split_ifs with hspace halnum
  · exact sound_of_node h (by simp [hstate]) (by simp [hstate])
  · refine ⟨h, fun _ _ => ⟨c, rest, rfl, halnum⟩, ?_, ?_, ?_⟩
    · exact fun _ hloop => Bool.noConfusion hloop
    · exact fun hvalue => ParseState.noConfusion hvalue
    · exact fun hvalue => ParseState.noConfusion hvalue
  · -- An element that ends here has neither a text nor children.
    refine .mk ⟨h.root.name, h.root.keys, h.root.values, h.root.distinct, ?_⟩ ?_
    · exact fun d hd => absurd hd List.not_mem_nil
    · exact fun child hchild => absurd hchild List.not_mem_nil
  · exact sound_of_node h (by simp) (by simp)
  · trivial

/-- The frame with the key cleared, as it is when the state is entered. -/
def Frame.clearedKey (f : Frame) : Frame := if f.inLoop then f else { f with attrKey := "" }

def Frame.clearedValue (f : Frame) : Frame := if f.inLoop then f else { f with attrValue := "" }

/-- Only the key can have changed. -/
theorem clearedKey_eq (f : Frame) :
    f.clearedKey = { f with attrKey := f.clearedKey.attrKey } := by
  rw [Frame.clearedKey]
  split_ifs <;> rfl

theorem clearedValue_eq (f : Frame) :
    f.clearedValue = { f with attrValue := f.clearedValue.attrValue } := by
  rw [Frame.clearedValue]
  split_ifs <;> rfl

theorem attrKey_eq : attrKey f false c next =
    if isNameChar c then .stay { f.clearedKey with attrKey := f.clearedKey.attrKey.push c }
    else if ∃ attr ∈ f.clearedKey.attributes, attr.1 = f.clearedKey.attrKey then
      .fail ("Attribute '" ++ f.clearedKey.attrKey ++ "' already defined")
    else if c = '=' ∧ next = some '"' then .consume { f.clearedKey with state := .attrValue }
    else .fail (unknownCharacter "3" c ++ ", expected '='") := by
  rw [attrKey, ← Frame.clearedKey]
  simp only [true_and]

theorem attrValue_eq : attrValue f false c =
    if c ≠ '"' ∧ isPrint c then
      .stay { f.clearedValue with attrValue := f.clearedValue.attrValue.push c }
    else if c = '"' then
      .goto { f.clearedValue with
        attributes := f.clearedValue.attributes ++
          [(f.clearedValue.attrKey, f.clearedValue.attrValue)],
        state := .openTagAttr }
    else .fail (unknownCharacter "4" c) := by
  rw [attrValue, ← Frame.clearedValue]
  simp only [Bool.false_eq_true, false_or, true_and]

theorem isKey_push {key : String} (h : IsKey key ∨ key = "" ∧ c.isAlphanum = true)
    (hc : isNameChar c = true) : IsKey (key.push c) := by
  rcases h with ⟨d, ds, hkey, hd, hds⟩ | ⟨rfl, halnum⟩
  · refine ⟨d, ds ++ [c], by rw [String.toList_push, hkey, List.cons_append], hd, ?_⟩
    rw [List.forall_mem_append, List.forall_mem_singleton]
    exact ⟨hds, hc⟩
  · exact ⟨c, [], by rw [String.toList_push]; rfl, halnum, fun d hd => absurd hd List.not_mem_nil⟩

theorem sound_attrKey (h : f.Sound text) (hstate : f.state = .attrKey)
    (hfirst : f.inLoop = false → c.isAlphanum = true) : (attrKey f false c next).Sound c rest := by
  have hnode : f.clearedKey.node = f.node := by rw [clearedKey_eq]; rfl
  have hkept : f.clearedKey.state = f.state := by rw [clearedKey_eq]
  have hkey : IsKey f.clearedKey.attrKey ∨
      f.clearedKey.attrKey = "" ∧ c.isAlphanum = true := by
    rw [Frame.clearedKey]
    split_ifs with hloop
    · exact .inl (h.key hstate hloop)
    · exact .inr ⟨rfl, hfirst (Bool.eq_false_iff.mpr hloop)⟩
  have hsound : Everywhere Printable f.clearedKey.node := hnode ▸ h.node
  rw [attrKey_eq]
  generalize f.clearedKey = g at hkept hkey hsound ⊢
  split_ifs with hname hsame hassign
  · refine ⟨hsound, ?_, fun _ _ => isKey_push hkey hname, ?_, ?_⟩
    · exact fun _ hloop => Bool.noConfusion hloop
    · exact fun hvalue => absurd (hkept.symm.trans hvalue) (by simp [hstate])
    · exact fun hvalue => absurd (hkept.symm.trans hvalue) (by simp [hstate])
  · trivial
  · refine ⟨hsound, ?_, ?_, fun _ => ⟨?_, ?_⟩, ?_⟩
    · exact fun hvalue => ParseState.noConfusion hvalue
    · exact fun hvalue => ParseState.noConfusion hvalue
    · refine hkey.resolve_right fun hempty => hname ?_
      simp [isNameChar, hempty.2]
    · simpa using hsame
    · exact fun _ hloop => Bool.noConfusion hloop
  · trivial

theorem sound_attrValue (h : f.Sound text) (hstate : f.state = .attrValue) :
    (attrValue f false c).Sound c rest := by
  have hnode : f.clearedValue.node = f.node := by rw [clearedValue_eq]; rfl
  have hkept : f.clearedValue.state = f.state := by rw [clearedValue_eq]
  have hsame : f.clearedValue.attrKey = f.attrKey := by rw [clearedValue_eq]
  obtain ⟨hkey, hnew⟩ := h.assigned hstate
  have hquoted : ∀ d ∈ f.clearedValue.attrValue.toList, InValue d := by
    rw [Frame.clearedValue]
    split_ifs with hloop
    · exact h.quoted hstate hloop
    · exact fun d hd => absurd hd List.not_mem_nil
  have hsound : Everywhere Printable f.clearedValue.node := hnode ▸ h.node
  have hattributes : f.clearedValue.attributes = f.attributes := congrArg XMLNode.attributes hnode
  rw [attrValue_eq]
  generalize f.clearedValue = g at hkept hsame hquoted hsound hattributes ⊢
  split_ifs with hchar hquote
  · refine ⟨hsound, ?_, ?_, ?_, ?_⟩
    · exact fun hread => absurd (hkept.symm.trans hread) (by simp [hstate])
    · exact fun hread => absurd (hkept.symm.trans hread) (by simp [hstate])
    · intro _
      change IsKey g.attrKey ∧ g.attrKey ∉ g.attributes.map Prod.fst
      rw [hsame, hattributes]
      exact ⟨hkey, hnew⟩
    · intro _ _
      rw [String.toList_push, List.forall_mem_append, List.forall_mem_singleton]
      exact ⟨hquoted, by simpa [InValue, and_comm] using hchar⟩
  · refine sound_of_node (everywhere_congr hsound ?_ rfl) (by simp) (by simp)
    have hroot := hsound.root
    refine ⟨hroot.name, ?_, ?_, ?_, hroot.value⟩
    · change ∀ attr ∈ g.attributes ++ [_], _
      rw [List.forall_mem_append, List.forall_mem_singleton]
      exact ⟨hroot.keys, hsame.symm ▸ hkey⟩
    · change ∀ attr ∈ g.attributes ++ [_], _
      rw [List.forall_mem_append, List.forall_mem_singleton]
      exact ⟨hroot.values, hquoted⟩
    · change ((g.attributes ++ [_]).map Prod.fst).Nodup
      rw [List.map_append, List.map_singleton, ← List.concat_eq_append]
      refine List.Nodup.concat ?_ hroot.distinct
      change g.attrKey ∉ g.attributes.map Prod.fst
      rwa [hsame, hattributes]
  · trivial

theorem sound_handle (h : f.Sound text)
    (hfirst : ∀ d ds, text = d :: ds → d.isAlphanum = true → c = d) :
    (handle f false c next).Sound c rest := by
  rw [handle]
  split_ifs
  · trivial
  cases hstate : f.state with
  | initial => exact sound_initial h.node hstate
  | openTagKey => exact sound_openTagKey h.node hstate
  | openTagAttr => exact sound_openTagAttr h.node hstate
  | body => exact sound_body h.node hstate
  | closeTag => exact sound_closeTag h.node hstate
  | attrValue => exact sound_attrValue h hstate
  | attrKey =>
    refine sound_attrKey h hstate fun hloop => ?_
    obtain ⟨d, ds, htext, hd⟩ := h.first hstate hloop
    rwa [hfirst d ds htext hd]

/-- What holds of all calls that are running. -/
def Progress.Sound : Progress (List Char) → Prop
  | .running cfg => cfg.frame.Sound cfg.reader ∧ ∀ p ∈ cfg.parents, p.Waiting
  | .done node _ => Everywhere Printable node
  | .failed _ _ => True

variable {ps : List Frame}

theorem sound_leave (h : Everywhere Printable node) (hps : ∀ p ∈ ps, p.Waiting) :
    (leave node rest ps).Sound := by
  cases ps with
  | nil => exact h
  | cons p ps =>
    rw [List.forall_mem_cons] at hps
    obtain ⟨⟨hbody, hp⟩, hps⟩ := hps
    refine ⟨sound_of_node (.mk ?_ ?_) (by simp [hbody]) (by simp [hbody]), hps⟩
    · exact ⟨hp.root.name, hp.root.keys, hp.root.values, hp.root.distinct, hp.root.value⟩
    · change ∀ child ∈ p.children ++ [node], _
      rw [List.forall_mem_append, List.forall_mem_singleton]
      exact ⟨hp.children, h⟩

theorem sound_start : ({} : Frame).Sound text := by
  refine sound_of_node (.mk ⟨?_, ?_, ?_, List.nodup_nil, ?_⟩ ?_) (by simp) (by simp)
  all_goals exact fun x hx => absurd hx List.not_mem_nil

theorem sound_perform {a : Action} (h : a.Sound c rest) (hps : ∀ p ∈ ps, p.Waiting) :
    (perform List.tail List.cons c rest ps a).Sound := by
  cases a with
  | stay f => exact ⟨h, hps⟩
  | goto f => exact ⟨h, hps⟩
  | consume f => exact ⟨h, hps⟩
  | unget f => exact ⟨h, hps⟩
  | enter f => exact ⟨sound_start, List.forall_mem_cons.mpr ⟨h, hps⟩⟩
  | finish node => exact sound_leave h hps
  | consumeFinish node => exact sound_leave h hps
  | fail message => trivial

theorem sound_moves {cfg : Config (List Char)} {o : Progress (List Char)} (move : Moves cfg o)
    (h : (Progress.running cfg).Sound) : o.Sound := by
  obtain ⟨c, rest, hdelivers, -, rfl⟩ := move
  refine sound_perform (sound_handle h.1 ?_) h.2
  intro d ds htext hd
  have hd' : d ≠ '\n' ∧ d ≠ '<' := by
    constructor
    · rintro rfl
      exact absurd hd (by decide)
    · rintro rfl
      exact absurd hd (by decide)
  rw [htext] at hdelivers
  exact (hdelivers.unique (delivers_cons hd' ds)).1

theorem sound_accepts {cfg : Config (List Char)} (h : Accepts cfg node rest)
    (hcfg : (Progress.running cfg).Sound) : Everywhere Printable node := by
  exact h.invariant (P := Progress.Sound) (fun _ _ => sound_moves) hcfg

/-- What the parser builds is printable. -/
theorem printable_of_accepts (h : Accepts ⟨text, {}, []⟩ node rest) : Everywhere Printable node :=
  sound_accepts h ⟨sound_start, fun _ hp => absurd hp List.not_mem_nil⟩

end Parsed

end Ctguard.XML
