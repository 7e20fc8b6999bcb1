import Ctguard.XMLPrint

/-!
# Reading a printed document again

A printed document is read back as the node that it was printed from, as long as no value of an
attribute contains the two characters that begin a comment. Such a value comes from a `<` and a `!`
that are separated by a line break or a comment only.
-/

namespace Ctguard.XML

section ReadingBack

variable {t rest : List Char} {c : Char} {cs ds : List Char} {f : Frame} {ps : List Frame}
  {node node' : XMLNode} {a : Action} {cfg : Config (List Char)}

/-- The two characters that begin a comment. -/
def Command (cs : List Char) : Prop := ['<', '!'] <:+: cs

/-- No value of an attribute begins a comment. -/
def Clean (node : XMLNode) : Prop := ∀ attr ∈ node.attributes, ¬ Command attr.2.toList

theorem delivers_open {d : Char} (hd : d ≠ '!') (t : List Char) :
    Delivers ('<' :: d :: t) '<' (d :: t) := by
  refine ⟨by decide, fun _ => ⟨List.cons_ne_nil d t, ?_⟩, [], .nil, rfl⟩
  simpa using hd

theorem isNameChar_range (h : isNameChar c = true) :
    c ≠ '\n' ∧ c ≠ '<' ∧ c ≠ '!' ∧ c ≠ '/' ∧ c ≠ '=' := by
  refine ⟨?_, ?_, ?_, ?_, ?_⟩ <;> (rintro rfl; exact absurd h (by decide))

/-- The name in the closing tag is read. -/
theorem accepts_closeTag (hstate : f.state = .closeTag)
    (hname : f.closeName.toList ++ cs = f.name.toList) (hcs : ∀ c ∈ cs, isNameChar c = true) :
    Accepts ⟨cs ++ '>' :: t, f, ps⟩ node rest ↔ (leave f.node t ps).Gives node rest := by
  induction cs generalizing f with
  | nil =>
    have hsame : f.name = f.closeName := by
      rw [← String.toList_inj, ← hname, List.append_nil]
    have hfinish : handle f false '>' none = .finish f.node := by
      have hend : isNameChar '>' = false := by decide
      rw [handle_of_ne (by decide), hstate]
      simp [closeTag, hend, hsame]
    exact accepts_iff_gives (delivers_cons (by decide) t) (by simp [looks, hstate]) hfinish
  | cons c cs ih =>
    rw [List.forall_mem_cons] at hcs
    have hstay : handle f false c none = .stay { f with closeName := f.closeName.push c } := by
      rw [handle_of_ne (isNameChar_ne hcs.1)]
      simp [hstate, closeTag, hcs.1]
    have hdelivers := delivers_cons ⟨(isNameChar_range hcs.1).1, (isNameChar_range hcs.1).2.1⟩
      (cs ++ '>' :: t)
    have hread := ih (f := { f with closeName := f.closeName.push c, inLoop := true }) hstate
      (by simpa using hname) hcs.2
    rw [List.cons_append, accepts_stay hdelivers (by simp [looks, hstate]) hstay]
    exact hread

/-- The text behind the children of an element. -/
def closing (name : String) (t : List Char) : List Char :=
  '<' :: '/' :: (name.toList ++ '>' :: t)

theorem accepts_closing (hstate : f.state = .body) (hclose : f.closeName = "")
    (hname : ∀ c ∈ f.name.toList, isNameChar c = true) :
    Accepts ⟨closing f.name t, f, ps⟩ node rest ↔ (leave f.node t ps).Gives node rest := by
  have hlook : looks f false '<' = true := by simp [looks, hstate]
  have hconsume : handle f false '<' (some '/') = .consume { f with state := .closeTag } := by
    rw [handle_of_ne (by decide), hstate]
    simp [body]
  have hmove : Moves ⟨closing f.name t, f, ps⟩ (.running ⟨f.name.toList ++ '>' :: t,
      { f with state := .closeTag, inLoop := false }, ps⟩) := by
    refine ⟨'<', '/' :: (f.name.toList ++ '>' :: t), delivers_open (by decide) _, by simp, ?_⟩
    dsimp only
    rw [if_pos hlook, List.head?_cons, hconsume]
    rfl
  rw [accepts_of_moves hmove]
  exact accepts_closeTag rfl (by simp [hclose]) hname

/-- A printed node is read as the node. -/
def ReadsBack (node : XMLNode) : Prop := ∀ t ps node' rest,
  Accepts ⟨print node ++ t, {}, ps⟩ node' rest ↔ (leave node t ps).Gives node' rest

/-- A printed node starts like an element. -/
theorem print_head (h : Printable node) :
    ∃ d ds, print node = '<' :: d :: ds ∧ d ≠ '/' ∧ d ≠ '!' := by
  obtain ⟨name, attributes, value, children⟩ := node
  rw [print]
  cases hname : name.toList with
  | cons d ds =>
    have hd := h.name d (by rw [hname]; exact List.mem_cons_self)
    obtain ⟨-, -, hbang, hslash, -⟩ := isNameChar_range hd
    exact ⟨d, _, rfl, hslash, hbang⟩
  | nil =>
    cases attributes with
    | nil => exact ⟨'>', _, rfl, by decide, by decide⟩
    | cons attr attributes => exact ⟨' ', _, rfl, by decide, by decide⟩

theorem accepts_children {nodes : List XMLNode}
    (hnodes : ∀ child ∈ nodes, Printable child ∧ ReadsBack child) (hstate : f.state = .body)
    (hclose : f.closeName = "") (hname : ∀ c ∈ f.name.toList, isNameChar c = true) :
    Accepts ⟨printAll nodes ++ closing f.name t, f, ps⟩ node rest ↔
      (leave { f.node with children := f.children ++ nodes } t ps).Gives node rest := by
  induction nodes generalizing f with
  | nil =>
    rw [List.append_nil]
    exact accepts_closing hstate hclose hname
  | cons child nodes ih =>
    rw [List.forall_mem_cons] at hnodes
    obtain ⟨⟨hprintable, hchild⟩, hnodes⟩ := hnodes
    obtain ⟨d, ds, hprint, hslash, hbang⟩ := print_head hprintable
    have hlook : looks f false '<' = true := by simp [looks, hstate]
    have henter : handle f false '<' (some d) = .enter f := by
      rw [handle_of_ne (by decide), hstate]
      simp [body, hslash]
    have hmove : Moves ⟨print child ++ (printAll nodes ++ closing f.name t), f, ps⟩
        (.running ⟨print child ++ (printAll nodes ++ closing f.name t), {}, f :: ps⟩) := by
      rw [hprint]
      refine ⟨'<', d :: ds ++ (printAll nodes ++ closing f.name t), delivers_open hbang _, by simp,
        ?_⟩
      dsimp only
      rw [if_pos hlook]
      change _ = perform _ _ _ _ _ (handle f false '<' (some d))
      rw [henter]
      rfl
    have hread := ih (f := { f with children := f.children ++ [child], inLoop := false }) hnodes
      hstate hclose hname
    rw [printAll, List.append_assoc, accepts_of_moves hmove, hchild, leave, gives_running]
    rw [List.append_cons f.children child nodes]
    exact hread

theorem isPrint_range (h : isPrint c = true) : c ≠ '\n' ∧ c ≠ '\t' ∧ c ≠ '\x00' := by
  refine ⟨?_, ?_, ?_⟩ <;> (rintro rfl; exact absurd h (by decide))

/-- The text of an element and all that follows it are read. -/
theorem accepts_text {nodes : List XMLNode} {value : String}
    (hnodes : ∀ child ∈ nodes, Printable child ∧ ReadsBack child) (hstate : f.state = .body)
    (hclose : f.closeName = "") (hname : ∀ c ∈ f.name.toList, isNameChar c = true)
    (hcs : ∀ c ∈ cs, InText c) (hvalue : f.value.toList ++ cs = value.toList) :
    Accepts ⟨cs ++ (printAll nodes ++ closing f.name t), f, ps⟩ node rest ↔
      (leave { f.node with value := value, children := f.children ++ nodes } t ps).Gives
        node rest := by
  induction cs generalizing f with
  | nil =>
    rw [List.append_nil, String.toList_inj] at hvalue
    subst hvalue
    exact accepts_children hnodes hstate hclose hname
  | cons c cs ih =>
    rw [List.forall_mem_cons] at hcs
    obtain ⟨⟨hprint, hopen⟩, hcs⟩ := hcs
    obtain ⟨hnewline, htab, hnull⟩ := isPrint_range hprint
    have hstay : handle f false c none = .stay { f with value := f.value.push c } := by
      rw [handle_of_ne hnull]
      simp [hstate, body, hopen, hprint, htab]
    have hread := ih (f := { f with value := f.value.push c, inLoop := true }) hstate hclose hname
      hcs (by simpa using hvalue)
    rw [List.cons_append, accepts_stay (delivers_cons ⟨hnewline, hopen⟩ _)
      (by simp [looks, hopen, hstate]) hstay]
    exact hread

theorem handle_attrKey (hstate : f.state = .attrKey) (hc : c ≠ '\x00') (next : Option Char) :
    handle f false c next = attrKey f false c next := by
  rw [handle_of_ne hc, hstate]

theorem handle_attrValue (hstate : f.state = .attrValue) (hc : c ≠ '\x00') (next : Option Char) :
    handle f false c next = attrValue f false c := by
  rw [handle_of_ne hc, hstate]

/-- The key of an attribute is read, from its first character on. -/
theorem accepts_attrKey {key : String} (hstate : f.state = .attrKey)
    (hkey : f.clearedKey.attrKey.toList ++ cs = key.toList) (hcs : ∀ c ∈ cs, isNameChar c = true)
    (hnew : key ∉ f.attributes.map Prod.fst) :
    Accepts ⟨cs ++ '=' :: '"' :: t, f, ps⟩ node rest ↔
      Accepts ⟨t, { f with attrKey := key, state := .attrValue, inLoop := false }, ps⟩ node
        rest := by
  induction cs generalizing f with
  | nil =>
    rw [List.append_nil, String.toList_inj] at hkey
    have hcleared : f.clearedKey = { f with attrKey := key } := hkey ▸ clearedKey_eq f
    have hlook : looks f false '=' = true := by simp [looks, hstate]
    have hend : isNameChar '=' = false := by decide
    have hother : ¬ ∃ attr ∈ f.attributes, attr.1 = key := by simpa using hnew
    have hconsume : handle f false '=' (some '"') =
        .consume { f with attrKey := key, state := .attrValue } := by
      rw [handle_attrKey hstate (by decide), attrKey_eq, hcleared, if_neg (by simp [hend]),
        if_neg hother, if_pos ⟨rfl, rfl⟩]
    apply accepts_of_moves
    refine ⟨'=', '"' :: t, delivers_cons (by decide) _, by simp, ?_⟩
    dsimp only
    rw [if_pos hlook, List.head?_cons, hconsume]
    rfl
  | cons c cs ih =>
    rw [List.forall_mem_cons] at hcs
    obtain ⟨hnewline, hopen, -, -, hequals⟩ := isNameChar_range hcs.1
    have hstay : handle f false c none =
        .stay { f with attrKey := f.clearedKey.attrKey.push c } := by
      rw [handle_attrKey hstate (isNameChar_ne hcs.1), attrKey_eq, if_pos hcs.1, clearedKey_eq]
    have hread := ih (f := { f with attrKey := f.clearedKey.attrKey.push c, inLoop := true })
      hstate (by simpa [Frame.clearedKey] using hkey) hcs.2 hnew
    rw [List.cons_append, accepts_stay (delivers_cons ⟨hnewline, hopen⟩ _)
      (by simp [looks, hequals, hstate]) hstay]
    exact hread

/-- The value of an attribute is read, and the attribute is kept. -/
theorem accepts_attrValue {value : String} (hstate : f.state = .attrValue)
    (hvalue : f.clearedValue.attrValue.toList ++ cs = value.toList) (hcs : ∀ c ∈ cs, InValue c)
    (hclean : ¬ Command cs) :
    Accepts ⟨cs ++ '"' :: t, f, ps⟩ node rest ↔
      Accepts ⟨t, { f with
        attrValue := value, attributes := f.attributes ++ [(f.attrKey, value)],
        state := .openTagAttr, inLoop := false }, ps⟩ node rest := by
  have hlook : ∀ c, looks f false c = false := by simp [looks, hstate]
  induction cs generalizing f with
  | nil =>
    rw [List.append_nil, String.toList_inj] at hvalue
    have hcleared : f.clearedValue = { f with attrValue := value } := hvalue ▸ clearedValue_eq f
    have hgoto : handle f false '"' none = .goto { f with
        attrValue := value, attributes := f.attributes ++ [(f.attrKey, value)],
        state := .openTagAttr } := by
      rw [handle_attrValue hstate (by decide), attrValue_eq, hcleared, if_neg (by simp), if_pos rfl]
    rw [List.nil_append, accepts_goto (delivers_cons (by decide) t) (hlook _) hgoto]
  | cons c cs ih =>
    rw [List.forall_mem_cons] at hcs
    obtain ⟨⟨hprint, hquote⟩, hcs⟩ := hcs
    obtain ⟨hnewline, -, hnull⟩ := isPrint_range hprint
    have hdelivers : Delivers (c :: (cs ++ '"' :: t)) c (cs ++ '"' :: t) := by
      by_cases hopen : c = '<'
      · subst hopen
        -- a bracket in a value is not followed by the rest of a command
        cases cs with
        | nil => exact delivers_open (by decide) t
        | cons d cs =>
          refine delivers_open ?_ (cs ++ '"' :: t)
          rintro rfl
          exact hclean ⟨[], cs, rfl⟩
      · exact delivers_cons ⟨hnewline, hopen⟩ _
    have hstay : handle f false c none =
        .stay { f with attrValue := f.clearedValue.attrValue.push c } := by
      rw [handle_attrValue hstate hnull, attrValue_eq, if_pos ⟨hquote, hprint⟩, clearedValue_eq]
    have hread := ih (f := { f with attrValue := f.clearedValue.attrValue.push c, inLoop := true })
      hstate (by simpa [Frame.clearedValue] using hvalue) hcs
      (fun h => hclean (h.trans (List.suffix_cons c cs).isInfix)) (by simp [looks, hstate])
    rw [List.cons_append, accepts_stay hdelivers (hlook c) hstay]
    exact hread

/-- The text behind the attributes of an element. -/
def content (node : XMLNode) (t : List Char) : List Char :=
  '>' :: (node.value.toList ++ (printAll node.children ++ closing node.name t))

theorem print_append (node : XMLNode) (t : List Char) : print node ++ t =
    '<' :: (node.name.toList ++ (node.attributes.flatMap printAttribute ++ content node t)) := by
  obtain ⟨name, attributes, value, children⟩ := node
  simp [print, content, closing]

/-- The call has read the name of a node, and at most attributes behind it. -/
structure Frame.Opens (f : Frame) (node : XMLNode) : Prop where
  name : f.name = node.name
  value : f.value = ""
  children : f.children = []
  closeName : f.closeName = ""

variable {elem : XMLNode}

theorem accepts_content (h : Printable elem)
    (hchildren : ∀ child ∈ elem.children, Printable child ∧ ReadsBack child)
    (hf : f.Opens elem) (hstate : f.state = .openTagAttr)
    (hattributes : f.attributes = elem.attributes) :
    Accepts ⟨content elem t, f, ps⟩ node rest ↔ (leave elem t ps).Gives node rest := by
  have hgoto : handle f false '>' none = .goto { f with state := .body } := by
    have hspace : isSpace '>' = false := by decide
    have halnum : '>'.isAlphanum = false := by decide
    rw [handle_openTagAttr hstate (by decide)]
    simp [openTagAttr, hspace, halnum]
  have hname : ∀ c ∈ f.name.toList, isNameChar c = true := by
    rw [hf.name]
    exact h.name
  have hvalue : f.value.toList ++ elem.value.toList = elem.value.toList := by simp [hf.value]
  rw [content, accepts_goto (delivers_cons (by decide) _) (by simp [looks]) hgoto]
  have hnode : { ({ f with state := .body, inLoop := false } : Frame).node with
      value := elem.value, children := f.children ++ elem.children } = elem := by
    simp only [Frame.node, hf.name, hattributes, hf.children, List.nil_append]
    cases elem
    rfl
  rw [← hf.name]
  refine (accepts_text (f := { f with state := .body, inLoop := false }) hchildren rfl hf.closeName
    hname h.value hvalue).trans ?_
  rw [hnode]

/-- The attributes of an element and all that follows them are read. -/
theorem accepts_attributes {attrs : List (String × String)} (h : Printable elem)
    (hclean : Clean elem) (hchildren : ∀ child ∈ elem.children, Printable child ∧ ReadsBack child)
    (hf : f.Opens elem) (hstate : f.state = .openTagAttr)
    (hattributes : f.attributes ++ attrs = elem.attributes) :
    Accepts ⟨attrs.flatMap printAttribute ++ content elem t, f, ps⟩ node rest ↔
      (leave elem t ps).Gives node rest := by
  induction attrs generalizing f with
  | nil =>
    rw [List.append_nil] at hattributes
    exact accepts_content h hchildren hf hstate hattributes
  | cons attr attrs ih =>
    obtain ⟨key, value⟩ := attr
    have hmem : (key, value) ∈ elem.attributes := by
      rw [← hattributes]
      exact List.mem_append_right _ List.mem_cons_self
    obtain ⟨c, cs, hkey, halnum, hcs⟩ : IsKey key := h.keys _ hmem
    have hnames : ∀ c ∈ key.toList, isNameChar c = true := by
      rw [hkey, List.forall_mem_cons]
      exact ⟨isNameChar_of_isAlphanum halnum, hcs⟩
    have hnew : key ∉ f.attributes.map Prod.fst := by
      have hdistinct := h.distinct
      rw [← hattributes, List.map_append, List.nodup_append] at hdistinct
      intro hold
      exact hdistinct.2.2 key hold key List.mem_cons_self rfl
    generalize htext : attrs.flatMap printAttribute ++ content elem t = text
    have hprint : ((key, value) :: attrs).flatMap printAttribute ++ content elem t =
        [' '] ++ (key.toList ++ '=' :: '"' :: (value.toList ++ '"' :: text)) := by
      rw [← htext]
      simp [printAttribute]
    have hdelivers : Delivers (key.toList ++ '=' :: '"' :: (value.toList ++ '"' :: text)) c
        (cs ++ '=' :: '"' :: (value.toList ++ '"' :: text)) := by
      obtain ⟨hnewline, hopen, -⟩ := isNameChar_range (isNameChar_of_isAlphanum halnum)
      rw [hkey]
      exact delivers_cons ⟨hnewline, hopen⟩ _
    have hspace : ∀ d ∈ [' '], isSpace d = true := by simp [isSpace]
    have hbehind : behindTagName f = { f with inLoop := false } := by rw [behindTagName, ← hstate]
    rw [hprint, accepts_spaces hstate hspace, ← accepts_inLoop hstate false, ← hbehind,
      accepts_key hdelivers halnum, ← List.cons_append, ← hkey,
      accepts_attrKey (f := { behindTagName f with state := .attrKey }) rfl ?_ hnames hnew,
      accepts_attrValue rfl ?_ (h.values _ hmem) (hclean _ hmem), ← htext]
    · exact ih (f := { f with
          attrKey := key, attrValue := value, attributes := f.attributes ++ [(key, value)],
          state := .openTagAttr, inLoop := false })
        ⟨hf.name, hf.value, hf.children, hf.closeName⟩ rfl
        ((List.append_cons f.attributes (key, value) attrs).symm.trans hattributes)
    · simp [Frame.clearedValue]
    · simp [Frame.clearedKey, behindTagName]

/-- A tag is read from the rest of its name on. -/
theorem accepts_openTag (h : Printable elem) (hclean : Clean elem)
    (hchildren : ∀ child ∈ elem.children, Printable child ∧ ReadsBack child)
    (hstate : f.state = .openTagKey) (hname : f.name.toList ++ cs = elem.name.toList)
    (hf : f.Opens { elem with name := f.name }) (hattributes : f.attributes = []) :
    Accepts ⟨cs ++ (elem.attributes.flatMap printAttribute ++ content elem t), f, ps⟩ node rest ↔
      (leave elem t ps).Gives node rest := by
  have hlook : ∀ c, looks f false c = false := by simp [looks, hstate]
  induction cs generalizing f with
  | nil =>
    rw [List.append_nil, String.toList_inj] at hname
    have hend : ∃ c ds, Delivers (elem.attributes.flatMap printAttribute ++ content elem t) c ds ∧
        isNameChar c = false := by
      cases elem.attributes with
      | nil => exact ⟨'>', _, delivers_cons (by decide) _, by decide⟩
      | cons attr attrs => exact ⟨' ', _, delivers_cons (by decide) _, by decide⟩
    obtain ⟨c, ds, hdelivers, hc⟩ := hend
    rw [List.nil_append, accepts_behindTagName hstate hdelivers hc]
    refine accepts_attributes h hclean hchildren ?_ rfl ?_
    · exact ⟨hname, hf.value, hf.children, hf.closeName⟩
    · rw [behindTagName, hattributes, List.nil_append]
  | cons c cs ih =>
    have hc : isNameChar c = true := by
      apply h.name
      rw [← hname]
      exact List.mem_append_right _ List.mem_cons_self
    obtain ⟨hnewline, hopen, -⟩ := isNameChar_range hc
    have hstay : handle f false c none = .stay { f with name := f.name.push c } := by
      rw [handle_of_ne (isNameChar_ne hc)]
      simp [hstate, openTagKey, hc]
    have hread := ih (f := { f with name := f.name.push c, inLoop := true }) hstate
      (by simpa using hname) ⟨rfl, hf.value, hf.children, hf.closeName⟩ hattributes
      (by simp [looks, hstate])
    rw [List.cons_append, accepts_stay (delivers_cons ⟨hnewline, hopen⟩ _) (hlook c) hstay]
    exact hread

/-- What is printed of a document without commands in its values is read back as it is. -/
theorem readsBack (h : Everywhere Printable elem) (hclean : Everywhere Clean elem) :
    ReadsBack elem := by
  induction elem using node_induction with
  | h elem ih =>
    intro t ps node rest
    have hchildren : ∀ child ∈ elem.children, Printable child ∧ ReadsBack child :=
      fun child hchild => ⟨(h.children child hchild).root,
        ih child hchild (h.children child hchild) (hclean.children child hchild)⟩
    obtain ⟨d, ds, hprint, -, hbang⟩ := print_head h.root
    have hdelivers : Delivers (print elem ++ t) '<' (d :: ds ++ t) := by
      rw [hprint]
      exact delivers_open hbang (ds ++ t)
    have hgoto : handle {} false '<' none = .goto { state := .openTagKey } := rfl
    have htext : d :: ds ++ t =
        elem.name.toList ++ (elem.attributes.flatMap printAttribute ++ content elem t) := by
      have hsame := print_append elem t
      rw [hprint] at hsame
      exact List.tail_eq_of_cons_eq hsame
    rw [accepts_goto hdelivers (by simp [looks]) hgoto, htext]
    exact accepts_openTag h.root hclean.root hchildren rfl rfl ⟨rfl, rfl, rfl, rfl⟩ rfl

end ReadingBack

end Ctguard.XML
