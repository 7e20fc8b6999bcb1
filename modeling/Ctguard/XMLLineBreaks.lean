import Ctguard.XMLComments

/-!
# Line breaks in tags

Line breaks are dropped before the states of the parser see them. Inside of a tag a line break
separates nothing: in place of the whitespace behind the name of a tag, it joins the name and the
key of the first attribute.
-/

namespace Ctguard.XML

section Reading

variable {t rest rest' : List Char} {c c' : Char} {f g : Frame} {ps : List Frame} {node : XMLNode}
  {a : Action}

/-- A character that starts nothing to be passed over is delivered. -/
theorem delivers_cons (hc : c ≠ '\n' ∧ c ≠ '<') (t : List Char) : Delivers (c :: t) c t :=
  ⟨hc.1, fun h => absurd h hc.2, [], .nil, rfl⟩

theorem isSpace_ne (h : isSpace c = true) : c ≠ '<' ∧ c ≠ '\x00' ∧ isNameChar c = false := by
  rw [isSpace, decide_eq_true_iff] at h
  simp only [List.mem_cons, List.not_mem_nil, or_false] at h
  rcases h with rfl | rfl | rfl | rfl | rfl | rfl <;> decide

theorem looks_space (h : isSpace c = true) : looks f false c = false := by
  rw [isSpace, decide_eq_true_iff] at h
  simp only [List.mem_cons, List.not_mem_nil, or_false] at h
  rcases h with rfl | rfl | rfl | rfl | rfl | rfl <;> simp [looks]

/-- What the parser has come to gives a node. -/
def Progress.Gives (o : Progress (List Char)) (node : XMLNode) (rest : List Char) : Prop :=
  o = .done node rest ∨ ∃ cfg, o = .running cfg ∧ Accepts cfg node rest

theorem gives_running {cfg : Config (List Char)} :
    (Progress.running cfg).Gives node rest ↔ Accepts cfg node rest := by
  simp [Progress.Gives]

/-- The first move of an accepted text is the one over the character that is delivered. -/
theorem accepts_iff_gives (h : Delivers t c rest) (hlook : looks f false c = false)
    (ha : handle f false c none = a) : Accepts ⟨t, f, ps⟩ node rest' ↔
      (perform List.tail List.cons c rest ps a).Gives node rest' := by
  have hmove : Moves ⟨t, f, ps⟩ (perform List.tail List.cons c rest ps a) := by
    refine ⟨c, rest, h, fun hlooks => ?_, ?_⟩
    · rw [hlook] at hlooks
      cases hlooks
    · dsimp only
      rw [hlook, if_neg (by decide), ha]
  constructor
  · rintro (move | ⟨move, hrun⟩)
    · exact .inl (hmove.unique move)
    · exact .inr ⟨_, hmove.unique move, hrun⟩
  · rintro (hdone | ⟨cfg, hrunning, hrun⟩)
    · exact .last (hdone ▸ hmove)
    · exact .next (hrunning ▸ hmove) hrun

theorem accepts_stay (h : Delivers t c rest) (hlook : looks f false c = false)
    (ha : handle f false c none = .stay g) : Accepts ⟨t, f, ps⟩ node rest' ↔
      Accepts ⟨rest, { g with inLoop := true }, ps⟩ node rest' :=
  (accepts_iff_gives h hlook ha).trans gives_running

theorem accepts_goto (h : Delivers t c rest) (hlook : looks f false c = false)
    (ha : handle f false c none = .goto g) : Accepts ⟨t, f, ps⟩ node rest' ↔
      Accepts ⟨rest, { g with inLoop := false }, ps⟩ node rest' :=
  (accepts_iff_gives h hlook ha).trans gives_running

theorem accepts_unget (h : Delivers t c rest) (hlook : looks f false c = false)
    (ha : handle f false c none = .unget g) : Accepts ⟨t, f, ps⟩ node rest' ↔
      Accepts ⟨c :: rest, { g with inLoop := false }, ps⟩ node rest' :=
  (accepts_iff_gives h hlook ha).trans gives_running

theorem not_accepts_fail {message : String} (h : Delivers t c rest)
    (hlook : looks f false c = false) (ha : handle f false c none = .fail message) :
    ¬ Accepts ⟨t, f, ps⟩ node rest' := by
  rw [accepts_iff_gives h hlook ha, perform]
  simp [Progress.Gives]

theorem handle_of_ne (hc : c ≠ '\x00') (next : Option Char) : handle f false c next =
    match f.state with
    | .initial => initial f false c
    | .openTagKey => openTagKey f c
    | .openTagAttr => openTagAttr f false c next
    | .body => body f false c next
    | .closeTag => closeTag f false c
    | .attrKey => attrKey f false c next
    | .attrValue => attrValue f false c := by
  rw [handle]
  refine (if_neg fun h => hc h.2).trans ?_
  cases f.state <;> rfl

end Reading

section Spaces

variable {t rest rest' : List Char} {c : Char} {f : Frame} {ps : List Frame} {node : XMLNode}
  {ws : List Char}

/-- The frame behind the name of a tag. -/
def behindTagName (f : Frame) : Frame := { f with state := .openTagAttr, inLoop := false }

theorem handle_null (hstate : f.state = .openTagAttr) (next : Option Char) :
    ∃ message, handle f false '\x00' next = .fail message := by
  rw [handle]
  split_ifs
  · exact ⟨_, rfl⟩
  · have hspace : isSpace '\x00' = false := by decide
    have halnum : '\x00'.isAlphanum = false := by decide
    simp [hstate, openTagAttr, hspace, halnum]

theorem handle_openTagAttr (hstate : f.state = .openTagAttr) (hc : c ≠ '\x00')
    (next : Option Char) : handle f false c next = openTagAttr f false c next := by
  rw [handle_of_ne hc, hstate]

/-- Between attributes, it does not matter whether the loop has read a character. -/
theorem moves_inLoop {o : Progress (List Char)} (hstate : f.state = .openTagAttr) (b : Bool)
    (h : Moves ⟨t, f, ps⟩ o) : (∃ message r, o = .failed message r) ∨
      Moves ⟨t, { f with inLoop := b }, ps⟩ o := by
  obtain ⟨c, rest, hdelivers, hlook, rfl⟩ := h
  by_cases hnull : c = '\x00'
  · subst hnull
    obtain ⟨message, hfail⟩ := handle_null hstate
      (if looks f false '\x00' then rest.head? else none)
    refine .inl ⟨message, rest, ?_⟩
    dsimp only
    rw [hfail]
    rfl
  · refine .inr ⟨c, rest, hdelivers, hlook, ?_⟩
    have hlooks : looks { f with inLoop := b } false c = looks f false c := rfl
    dsimp only
    rw [handle_openTagAttr hstate hnull,
      handle_openTagAttr (f := { f with inLoop := b }) hstate hnull, hlooks, openTagAttr, openTagAttr]
    split_ifs <;> rfl

theorem accepts_inLoop (hstate : f.state = .openTagAttr) (b : Bool) :
    Accepts ⟨t, { f with inLoop := b }, ps⟩ node rest ↔ Accepts ⟨t, f, ps⟩ node rest := by
  have himp : ∀ {f : Frame} (b), f.state = .openTagAttr → Accepts ⟨t, f, ps⟩ node rest →
      Accepts ⟨t, { f with inLoop := b }, ps⟩ node rest := by
    rintro f b hstate (move | ⟨move, hrun⟩)
    · rcases moves_inLoop hstate b move with ⟨message, r, hfail⟩ | hmove
      · cases hfail
      · exact .last hmove
    · rcases moves_inLoop hstate b move with ⟨message, r, hfail⟩ | hmove
      · cases hfail
      · exact .next hmove hrun
  exact ⟨himp (f := { f with inLoop := b }) f.inLoop hstate, himp b hstate⟩

/-- Whitespace between attributes is read over. -/
theorem accepts_spaces (hstate : f.state = .openTagAttr) (hws : ∀ c ∈ ws, isSpace c = true) :
    Accepts ⟨ws ++ t, f, ps⟩ node rest ↔ Accepts ⟨t, f, ps⟩ node rest := by
  induction ws with
  | nil => rfl
  | cons c ws ih =>
    rw [List.forall_mem_cons] at hws
    rw [← ih hws.2, List.cons_append]
    by_cases hc : c = '\n'
    · subst hc
      exact accepts_skipped (s := ['\n']) (.newline .nil)
    · obtain ⟨hopen, hnull, -⟩ := isSpace_ne hws.1
      have hstay : handle f false c none = .stay f := by
        rw [handle_openTagAttr hstate hnull, openTagAttr, if_pos hws.1]
      rw [accepts_stay (delivers_cons ⟨hc, hopen⟩ (ws ++ t)) (looks_space hws.1) hstay]
      exact accepts_inLoop hstate true

end Spaces

section Names

variable {t rest rest' : List Char} {c : Char} {f g : Frame} {ps qs : List Frame}
  {node node' : XMLNode}

/-- Where the name of a tag ends, the attributes are read. -/
theorem accepts_behindTagName (hstate : f.state = .openTagKey) (h : Delivers t c rest)
    (hc : isNameChar c = false) :
    Accepts ⟨t, f, ps⟩ node rest' ↔ Accepts ⟨t, behindTagName f, ps⟩ node rest' := by
  have hlook : looks f false c = false := by simp [looks, hstate]
  by_cases hnull : f.inLoop = false ∧ c = '\x00'
  · have hlook' : looks (behindTagName f) false c = false := by simp [looks, hnull.2]
    have hfail : handle f false c none =
        .fail ("Unexpected end, while in tag '" ++ f.name ++ "'") := by
      rw [handle, if_pos hnull]
    have hfail' : handle (behindTagName f) false c none =
        .fail ("Unexpected end, while in tag '" ++ f.name ++ "'") := by
      rw [handle, if_pos ⟨rfl, hnull.2⟩, behindTagName]
    exact iff_of_false (not_accepts_fail h hlook hfail) (not_accepts_fail h hlook' hfail')
  · have hunget : handle f false c none = .unget { f with state := .openTagAttr } := by
      rw [handle, if_neg hnull]
      simp [hstate, openTagKey, hc]
    rw [accepts_unget h hlook hunget]
    obtain ⟨-, -, skipped, hskipped, rfl⟩ := h
    exact (accepts_skipped hskipped).symm

theorem isNameChar_ne (h : isNameChar c = true) : c ≠ '\x00' := by
  rintro rfl
  exact absurd h (by decide)

/-- The key of an attribute goes on, or it ends at an equals sign. -/
theorem moves_attrKey {o : Progress (List Char)} (hf : f.state = .attrKey)
    (h : Moves ⟨t, f, ps⟩ o) : (∃ message r, o = .failed message r) ∨
      (∃ c rest f', Delivers t c rest ∧ isNameChar c = true ∧ f'.state = .attrKey ∧
        o = .running ⟨rest, f', ps⟩) ∨ ∃ rest, Delivers t '=' rest := by
  obtain ⟨c, rest, hdelivers, hlook, rfl⟩ := h
  dsimp only at hdelivers hlook ⊢
  generalize (if looks f false c then rest.head? else none) = next
  rw [handle, hf]
  split_ifs
  · exact .inl ⟨_, _, rfl⟩
  · simp only
    rw [attrKey]
    have hkept : (if f.inLoop = true then f else { f with attrKey := "" }).state = .attrKey := by
      split_ifs
      · exact hf
      · exact hf
    generalize (if f.inLoop = true then f else { f with attrKey := "" }) = f₁ at hkept ⊢
    split_ifs with hname hsame hequals
    · refine .inr (.inl ⟨c, rest, _, hdelivers, hname, ?_, rfl⟩)
      exact hkept
    · exact .inl ⟨_, _, rfl⟩
    · exact .inr (.inr ⟨rest, hequals.2.1 ▸ hdelivers⟩)
    · exact .inl ⟨_, _, rfl⟩

/-- Between attributes stand whitespace, keys and the end of the tag. -/
theorem not_accepts_other (hstate : f.state = .openTagAttr) (h : Delivers t c rest)
    (hspace : isSpace c = false) (halnum : c.isAlphanum = false) (hc : c ≠ '/' ∧ c ≠ '>') :
    ¬ Accepts ⟨t, f, ps⟩ node rest' := by
  have hlook : looks f false c = false := by simp [looks, hstate, hc.1]
  have hfail : ∃ message, handle f false c none = .fail message := by
    rw [handle]
    split_ifs
    · exact ⟨_, rfl⟩
    · simp [hstate, openTagAttr, hspace, halnum, hc]
  obtain ⟨message, hfail⟩ := hfail
  exact not_accepts_fail h hlook hfail

/-- An equals sign does not follow the name of a tag. -/
theorem not_accepts_equals (hg : g.state = .openTagKey) (h : Delivers t '=' rest) :
    ¬ Accepts ⟨t, g, ps⟩ node rest' := by
  rw [accepts_behindTagName hg h (by decide)]
  exact not_accepts_other rfl h (by decide) (by decide) (by decide)

/-- The key of an attribute cannot be the rest of the name of a tag instead. -/
theorem not_accepts_joined (h : Accepts ⟨t, f, ps⟩ node rest) (hf : f.state = .attrKey)
    (hg : g.state = .openTagKey) : ¬ Accepts ⟨t, g, qs⟩ node' rest' := by
  generalize hcfg : (⟨t, f, ps⟩ : Config (List Char)) = cfg at h
  induction h generalizing t f g with
  | last move =>
    subst hcfg
    rcases moves_attrKey hf move with ⟨message, r, ho⟩ | ⟨c, r, f', -, -, -, ho⟩ | ⟨r, hequals⟩
    · cases ho
    · cases ho
    · exact not_accepts_equals hg hequals
  | next move hrun ih =>
    subst hcfg
    rcases moves_attrKey hf move with ⟨message, r, ho⟩ | ⟨c, r, f', hdelivers, hname, hf', ho⟩ |
      ⟨r, hequals⟩
    · cases ho
    · cases ho
      have hlook : looks g false c = false := by simp [looks, hg]
      have hstay : handle g false c none = .stay { g with name := g.name.push c } := by
        rw [handle_of_ne (isNameChar_ne hname)]
        simp [hg, openTagKey, hname]
      rw [accepts_stay hdelivers hlook hstay]
      exact ih hf' hg rfl
    · exact not_accepts_equals hg hequals

end Names

section Gaps

variable {text pre post ws : List Char} {w : Char} {cfg : Config Reader} {node : XMLNode}

/-- The whitespace stands behind the name of an opening tag or behind an attribute, and the parser
is about to read it for the first time. -/
structure Gap (text pre : List Char) (w : Char) (post : List Char)
    (cfg : Config Reader) : Prop where
  steps : Steps (start text) cfg
  text_eq : text = pre ++ w :: post
  space : isSpace w = true
  next : ∃ skipped, Skipped skipped ∧ cfg.reader.rest = skipped ++ w :: post
  place : (cfg.frame.state = .openTagKey ∧
      ∃ c rest, Delivers cfg.reader.rest c rest ∧ isNameChar c = false) ∨
    cfg.frame.state = .openTagAttr ∧ ∀ cfg₀, Steps (start text) cfg₀ →
      cfg₀.frame.state = .openTagKey → step cfg₀ ≠ .ok (.running cfg)

/-- Without the whitespace, the name of the tag and the key of an attribute are one word. -/
def Joins (w : Char) (ws post : List Char) (cfg : Config Reader) : Prop :=
  cfg.frame.state = .openTagKey ∧ w ≠ '\n' ∧ (∀ d ∈ ws, d = '\n') ∧
    ∃ c rest, Delivers post c rest ∧ c.isAlphanum = true

/-- What is put back into the text is not whitespace, except behind the name of a tag. -/
theorem handle_unget_space {f g : Frame} {c : Char} {next : Option Char} (hc : isSpace c = true)
    (h : handle f false c next = .unget g) : f.state = .openTagKey ∧ g.state = .openTagAttr := by
  rw [handle] at h
  split_ifs at h
  cases hstate : f.state <;> simp only [hstate] at h
  case openTagKey =>
    rw [openTagKey] at h
    split_ifs at h
    cases h
    exact ⟨rfl, rfl⟩
  case openTagAttr =>
    rw [openTagAttr, if_pos hc] at h
    cases h
  all_goals
    simp only [initial, closeTag, body, attrKey, attrValue] at h
    split_ifs at h

theorem returns_steps {cfg₀ : Config Reader} (h : Steps cfg₀ cfg) :
    Returns cfg₀ node ↔ Returns cfg node := by
  induction h with
  | refl => rfl
  | tail _ hstep ih => rw [ih, returns_step hstep]

theorem settled_start (text : List Char) : Settled (start text).reader := .inl ⟨rfl, rfl, rfl⟩

/-- The character that a step reads and leaves is the first one that is left. -/
theorem cons_of_stays {cfg₀ : Config Reader} {c : Char} {r : Reader} {v x : List Char}
    (hv : Skipped v) (htext : cfg₀.reader.rest = v ++ x) (hleft : x <:+ c :: r.rest) (hne : x ≠ [])
    (hdelivers : r.rest = [] ∨ Delivers cfg₀.reader.rest c r.rest) : x = c :: r.rest := by
  rcases hdelivers with hend | hdelivers
  · rw [hend] at hleft ⊢
    rcases List.suffix_cons_iff.mp hleft with heq | hnil
    · exact heq
    · exact absurd (List.suffix_nil.mp hnil) hne
  · rw [htext, delivers_skipped hv] at hdelivers
    obtain ⟨-, -, skipped', -, hx⟩ := hdelivers
    exact hleft.eq_of_length_le (by rw [hx, List.length_append]; omega)

/-- No whitespace is the first character of a step that leaves it, unless the name of a tag ends. -/
theorem of_stays {f₀ : Frame} {cfg₁ : Config Reader} {c : Char} {r : Reader} {next : Option Char}
    {ps : List Frame} (hc : isSpace c = true)
    (ho : .running cfg₁ = perform Reader.ignore Reader.unget c r ps (handle f₀ false c next))
    (hstays : cfg₁.reader.rest = c :: r.rest) :
    f₀.state = .openTagKey ∧ cfg₁.frame.state = .openTagAttr := by
  have hlonger : ∀ {rest : List Char}, rest <:+ r.rest → rest ≠ c :: r.rest := by
    rintro rest hsuffix rfl
    have hle := hsuffix.length_le
    rw [List.length_cons] at hle
    omega
  have hkept := congrArg Progress.reader ho
  change cfg₁.reader = _ at hkept
  rw [hkept] at hstays
  cases ha : handle f₀ false c next with
  | unget g =>
    rw [ha] at ho
    cases ho
    obtain ⟨hf, hg⟩ := handle_unget_space hc ha
    exact ⟨hf, hg⟩
  | enter g => exact absurd (handle_enter ha).2 (isSpace_ne hc).1
  | finish node =>
    rw [ha, perform, leave_reader] at hstays
    exact absurd hstays (hlonger (List.suffix_refl _))
  | consumeFinish node =>
    rw [ha, perform, leave_reader] at hstays
    exact absurd hstays (hlonger (List.tail_suffix _))
  | consume g =>
    rw [ha] at hstays
    exact absurd hstays (hlonger (List.tail_suffix _))
  | stay g =>
    rw [ha] at hstays
    exact absurd hstays (hlonger (List.suffix_refl _))
  | goto g =>
    rw [ha] at hstays
    exact absurd hstays (hlonger (List.suffix_refl _))
  | fail message =>
    rw [ha] at hstays
    exact absurd hstays (hlonger (List.suffix_refl _))

/-- A step between attributes reads over whitespace. -/
theorem rest_lt_of_space {cfg₁ cfg₂ : Config Reader} (h : step cfg₁ = .ok (.running cfg₂))
    (hr : Settled cfg₁.reader) (hstate : cfg₁.frame.state = .openTagAttr)
    (hw : isSpace w = true) (hrest : cfg₁.reader.rest = w :: post) :
    cfg₂.reader.rest.length < cfg₁.reader.rest.length := by
  obtain ⟨c, r, skipped, next, -, hread, -, ho, -⟩ := step_ok h hr.escaped
  have hleft := rest_perform c r cfg₁.parents (handle cfg₁.frame false c next)
  rw [← ho] at hleft
  cases skipped with
  | nil =>
    rw [hread, List.nil_append, List.cons.injEq] at hrest
    obtain ⟨rfl, -⟩ := hrest
    rw [handle_openTagAttr hstate (isSpace_ne hw).2.1, openTagAttr, if_pos hw] at ho
    cases ho
    rw [hread]
    exact Nat.lt_succ_self _
  | cons d skipped =>
    have hle := hleft.length_le
    change cfg₂.reader.rest.length ≤ _ at hle
    rw [hread, List.cons_append, List.length_cons, List.length_append]
    omega

/-- Only behind the name of a tag, whitespace is read that stays where it is. -/
theorem Gap.not_stays {cfg₀ cfg₁ : Config Reader} (h : Gap text pre w post cfg)
    (hsteps : Steps (start text) cfg₀) (hstep : step cfg₀ = .ok (.running cfg₁))
    (hlater : Steps cfg₁ cfg) (hrest : cfg₁.reader.rest = cfg.reader.rest)
    {v : List Char} (hv : Skipped v) (htext : cfg₀.reader.rest = v ++ cfg.reader.rest) : False := by
  have hr₀ := (rest_steps hsteps (settled_start text)).1
  have hr₁ := settled_step hstep hr₀
  obtain ⟨s, hs, hnext⟩ := h.next
  obtain ⟨c, r, skipped, next, -, -, -, ho, hread⟩ := step_ok hstep hr₀.escaped
  have hleft := rest_perform c r cfg₀.parents (handle cfg₀.frame false c next)
  rw [← ho] at hleft
  change cfg₁.reader.rest <:+ _ at hleft
  rw [hrest, hnext] at hleft
  have hfirst : w :: post = c :: r.rest := by
    apply cons_of_stays (hv.append hs)
    · rw [htext, hnext, List.append_assoc]
    · exact (List.suffix_append s _).trans hleft
    · exact List.cons_ne_nil _ _
    · exact hread.imp And.left fun h => h.2.1
  have hnil : s = [] := by
    have hle := hleft.length_le
    rw [← hfirst, List.length_append] at hle
    exact List.eq_nil_of_length_eq_zero (by omega)
  rw [hnil, List.nil_append] at hnext
  obtain ⟨rfl, rfl⟩ := List.cons.inj hfirst
  obtain ⟨hkey, hattr⟩ := of_stays h.space ho (hrest.trans hnext)
  rcases hlater.cases_head with heq | ⟨cfg₂, hstep₂, hlater₂⟩
  · rcases h.place with ⟨hstate, -⟩ | ⟨-, hplace⟩
    · rw [← heq, hattr] at hstate
      cases hstate
    · rw [heq] at hstep
      exact hplace cfg₀ hsteps hkey hstep
  · have hlt := rest_lt_of_space hstep₂ hr₁ hattr h.space (hrest.trans hnext)
    have hle := (rest_steps hlater₂ (settled_step hstep₂ hr₁)).2.length_le
    rw [hrest] at hlt
    omega

/-- Up to the whitespace, both texts are read alike. -/
theorem Gap.accepts_iff {cfg₀ : Config Reader} {v y rest : List Char} (h : Gap text pre w post cfg)
    (hsteps : Steps (start text) cfg₀) (hlater : Steps cfg₀ cfg) (hreturns : Returns cfg₀ node)
    (htext : cfg₀.reader.rest = v ++ cfg.reader.rest)
    (hy : y.head? = some '\n' ∨ y.head? = some '<') {node' : XMLNode} :
    Accepts ⟨v ++ y, cfg₀.frame, cfg₀.parents⟩ node' rest ↔
      Accepts ⟨y, cfg.frame, cfg.parents⟩ node' rest := by
  induction hlater using Relation.ReflTransGen.head_induction_on generalizing v with
  | refl =>
    rw [List.self_eq_append_left.mp htext, List.nil_append]
  | @head cfg₀ cfg₁ hstep hlater ih =>
    have hr₀ := (rest_steps hsteps (settled_start text)).1
    have hr₁ := settled_step hstep hr₀
    obtain ⟨v₁, hv₁⟩ := (rest_steps hlater hr₁).2
    have hreturns₁ := (returns_step hstep).mp hreturns
    rcases moves_or_last hstep hr₀ with ⟨skipped, c, -, hc, -, hleft⟩ | hmoves
    · obtain ⟨n, r, hrun⟩ := hreturns₁
      have hnone : '>' ∉ [c] := by simpa using hc.symm
      exact absurd hrun (run_ne_ok hr₁.escaped (fun hmem => hnone (hleft.subset hmem)) node r)
    · have hmove : Moves ⟨v ++ cfg.reader.rest, cfg₀.frame, cfg₀.parents⟩
          (.running ⟨v₁ ++ cfg.reader.rest, cfg₁.frame, cfg₁.parents⟩) := by
        rw [← htext, hv₁]
        exact hmoves
      rcases hmove.replace hy with ⟨hskipped, rfl⟩ | hmove'
      · rw [List.nil_append] at hv₁
        exact (h.not_stays hsteps hstep hlater hv₁.symm hskipped htext).elim
      · rw [accepts_of_moves hmove']
        exact ih (hsteps.tail hstep) hreturns₁ hv₁.symm

end Gaps

section Replaced

variable {text pre post ws rest : List Char} {w : Char} {cfg : Config Reader} {node : XMLNode}
  {f : Frame} {ps : List Frame}

theorem skipped_of_newlines (h : ∀ d ∈ ws, d = '\n') : Skipped ws := by
  rw [List.eq_replicate_of_mem h, ← List.append_nil (List.replicate _ _)]
  exact Skipped.nil.newlines _

/-- With whitespace other than line breaks behind it, the name of a tag ends. -/
theorem accepts_spaces_of_key (hstate : f.state = .openTagKey) (hws : ∀ d ∈ ws, isSpace d = true)
    (hsome : ∃ d ∈ ws, d ≠ '\n') : Accepts ⟨ws ++ post, f, ps⟩ node rest ↔
      Accepts ⟨post, behindTagName f, ps⟩ node rest := by
  obtain ⟨n, ds, rfl, hds⟩ := exists_newlines ws
  have hnewlines : Skipped (List.replicate n '\n') := by
    rw [← List.append_nil (List.replicate _ _)]
    exact Skipped.nil.newlines _
  cases ds with
  | nil =>
    obtain ⟨d, hd, hne⟩ := hsome
    rw [List.append_nil] at hd
    exact absurd (List.eq_of_mem_replicate hd) hne
  | cons d ds =>
    have hd : d ≠ '\n' := by simpa using hds
    obtain ⟨hopen, -, hname⟩ := isSpace_ne (hws d (List.mem_append_right _ List.mem_cons_self))
    have hdelivers : Delivers (List.replicate n '\n' ++ d :: ds ++ post) d (ds ++ post) := by
      rw [List.append_assoc, delivers_skipped hnewlines]
      exact delivers_cons ⟨hd, hopen⟩ (ds ++ post)
    rw [accepts_behindTagName hstate hdelivers hname]
    exact accepts_spaces rfl hws

theorem isNameChar_of_isAlphanum {c : Char} (h : c.isAlphanum = true) : isNameChar c = true := by
  simp [isNameChar, h]

/-- The key of an attribute starts behind the name of a tag. -/
theorem accepts_key {c : Char} {rest' : List Char} (h : Delivers post c rest')
    (hc : c.isAlphanum = true) : Accepts ⟨post, behindTagName f, ps⟩ node rest ↔
      Accepts ⟨c :: rest', { behindTagName f with state := .attrKey }, ps⟩ node rest := by
  have hname := isNameChar_of_isAlphanum hc
  have hspace : isSpace c ≠ true := by
    intro hspace
    rw [(isSpace_ne hspace).2.2] at hname
    cases hname
  have hslash : c ≠ '/' := by
    rintro rfl
    exact absurd hc (by decide)
  have hlook : looks (behindTagName f) false c = false := by simp [looks, behindTagName, hslash]
  have hunget : handle (behindTagName f) false c none =
      .unget { behindTagName f with state := .attrKey } := by
    rw [handle_openTagAttr rfl (isNameChar_ne hname), openTagAttr, if_neg hspace, if_pos hc]
  exact accepts_unget h hlook hunget

theorem Accepts.exists_delivers {cfg : Config (List Char)} (h : Accepts cfg node rest) :
    ∃ c rest', Delivers cfg.reader c rest' := by
  rcases h with ⟨c, rest', hdelivers, -⟩ | ⟨⟨c, rest', hdelivers, -⟩, -⟩
  · exact ⟨c, rest', hdelivers⟩
  · exact ⟨c, rest', hdelivers⟩

/-- Whether the name and the key become one word. -/
theorem accepts_joined_iff (hstate : f.state = .openTagKey)
    (h : Accepts ⟨post, behindTagName f, ps⟩ node rest) :
    (∃ rest, Accepts ⟨post, f, ps⟩ node rest) ↔
      ¬ ∃ c rest, Delivers post c rest ∧ c.isAlphanum = true := by
  obtain ⟨c, rest', hdelivers⟩ := h.exists_delivers
  by_cases hc : c.isAlphanum = true
  · refine iff_of_false ?_ (not_not.mpr ⟨c, rest', hdelivers, hc⟩)
    rintro ⟨rest₁, haccepts⟩
    rw [accepts_key hdelivers hc] at h
    obtain ⟨-, -, skipped, hskipped, rfl⟩ := hdelivers
    rw [accepts_skipped hskipped] at haccepts
    exact not_accepts_joined h rfl hstate haccepts
  · have hname : isNameChar c = false := by
      rw [isNameChar, decide_eq_false_iff_not, not_or]
      refine ⟨hc, ?_⟩
      rintro rfl
      exact not_accepts_other rfl hdelivers (by decide) (by decide) (by decide) h
    refine iff_of_true ⟨rest, (accepts_behindTagName hstate hdelivers hname).mpr h⟩ ?_
    rintro ⟨c', rest₁, hdelivers', hc'⟩
    rw [(hdelivers.unique hdelivers').1] at hc
    exact hc hc'

/-- What is accepted with the whitespace of a gap is accepted without it, once the name has
ended. -/
theorem Gap.accepts_behind (h : Gap text pre w post cfg) (hkey : cfg.frame.state = .openTagKey)
    (haccepts : Accepts ⟨w :: post, cfg.frame, cfg.parents⟩ node rest) :
    Accepts ⟨post, behindTagName cfg.frame, cfg.parents⟩ node rest := by
  by_cases hw : w = '\n'
  · subst hw
    rcases h.place with ⟨-, c, rest', hdelivers, hname⟩ | ⟨hattr, -⟩
    · obtain ⟨s, hs, hnext⟩ := h.next
      rw [hnext, delivers_skipped hs] at hdelivers
      have hread : Accepts ⟨post, cfg.frame, cfg.parents⟩ node rest :=
        (accepts_skipped (s := ['\n']) (.newline .nil)).mp haccepts
      exact (accepts_behindTagName hkey hdelivers.of_newline hname).mp hread
    · rw [hkey] at hattr
      cases hattr
  · have hspace : ∀ d ∈ [w], isSpace d = true := by simpa using h.space
    have hsome : ∃ d ∈ [w], d ≠ '\n' := by simpa using hw
    exact (accepts_spaces_of_key hkey hspace hsome).mp haccepts

/-- The parser at the whitespace of a gap, in both texts. -/
theorem Gap.accepts_replaced (h : Gap text pre w post cfg) (hws : ∀ d ∈ ws, isSpace d = true)
    (haccepts : Accepts ⟨w :: post, cfg.frame, cfg.parents⟩ node rest) :
    (∃ rest, Accepts ⟨ws ++ post, cfg.frame, cfg.parents⟩ node rest) ↔ ¬ Joins w ws post cfg := by
  rcases h.place with ⟨hkey, -⟩ | ⟨hattr, -⟩
  · have hbehind := h.accepts_behind hkey haccepts
    by_cases hsome : ∃ d ∈ ws, d ≠ '\n'
    · refine iff_of_true ⟨rest, (accepts_spaces_of_key hkey hws hsome).mpr hbehind⟩ ?_
      rintro ⟨-, -, hall, -⟩
      obtain ⟨d, hd, hne⟩ := hsome
      exact hne (hall d hd)
    · have hall : ∀ d ∈ ws, d = '\n' := by simpa using hsome
      simp only [accepts_skipped (skipped_of_newlines hall)]
      by_cases hw : w = '\n'
      · subst hw
        refine iff_of_true ⟨rest, ?_⟩ fun hjoins => hjoins.2.1 rfl
        exact (accepts_skipped (s := ['\n']) (.newline .nil)).mp haccepts
      · rw [accepts_joined_iff hkey hbehind, Joins]
        simp only [hkey, hw, ne_eq, not_false_eq_true, true_and]
        rw [and_iff_right hall]
  · have hspace : ∀ d ∈ [w], isSpace d = true := by simpa using h.space
    refine iff_of_true ⟨rest, (accepts_spaces hattr hws).mpr ?_⟩ ?_
    · exact (accepts_spaces hattr hspace).mp haccepts
    · rintro ⟨hkey, -⟩
      rw [hattr] at hkey
      cases hkey

/-- A line break in place of whitespace in a tag changes nothing, unless it joins two words. -/
theorem lineBreak_iff (hparse : ∃ r, parse text = .ok (node, r)) (h : Gap text pre w post cfg)
    (hws : ∀ d ∈ ws, isSpace d = true) :
    (∃ r, parse (pre ++ '\n' :: (ws ++ post)) = .ok (node, r)) ↔ ¬ Joins w ws post cfg := by
  rw [parse_ok_iff_returns] at hparse
  obtain ⟨hr, v, hv⟩ := rest_steps h.steps (settled_start text)
  obtain ⟨s, hs, hnext⟩ := h.next
  obtain ⟨rest, haccepts⟩ := (returns_iff hr).mp ((returns_steps h.steps).mp hparse)
  rw [Config.text, Config.map, hnext, accepts_skipped hs] at haccepts
  have hpre : pre = v ++ s := by
    have htext : v ++ cfg.reader.rest = text := hv
    rw [hnext, h.text_eq, ← List.append_assoc] at htext
    exact (List.append_cancel_right htext).symm
  have hy : (s ++ '\n' :: (ws ++ post)).head? = some '\n' ∨
      (s ++ '\n' :: (ws ++ post)).head? = some '<' := by
    rcases hs.head with rfl | ⟨cs, rfl⟩ | ⟨cs, rfl⟩
    · exact .inl rfl
    · exact .inl rfl
    · exact .inr rfl
  have hgap : Skipped (s ++ ['\n']) := hs.append (.newline .nil)
  have hmiddle : s ++ '\n' :: (ws ++ post) = s ++ ['\n'] ++ (ws ++ post) := by simp
  rw [parse_ok_iff_returns, returns_iff (settled_start _), ← h.accepts_replaced hws haccepts, hpre,
    List.append_assoc]
  refine exists_congr fun rest' => (h.accepts_iff .refl h.steps hparse hv.symm hy).trans ?_
  rw [hmiddle]
  exact accepts_skipped hgap

/-- The space in front of the end of a tag. -/
theorem gap_behindName : Gap "<a ></a>".toList "<a".toList ' ' "></a>".toList
    (behindName " ></a>".toList) where
  steps := steps_behindName ' ' "></a>".toList
  text_eq := rfl
  space := by decide
  next := ⟨[], .nil, rfl⟩
  place := .inl ⟨rfl, ' ', "></a>".toList, delivers_cons (by decide) _, by decide⟩

theorem lineBreak_iff_tag : (∃ r, parse "<a ></a>".toList = .ok ({ name := "a" }, r)) ∧
    Gap "<a ></a>".toList "<a".toList ' ' "></a>".toList (behindName " ></a>".toList) ∧
    (∀ d ∈ ([] : List Char), isSpace d = true) ∧
    ((∃ r, parse ("<a".toList ++ '\n' :: ([] ++ "></a>".toList)) = .ok ({ name := "a" }, r)) ↔
      ¬ Joins ' ' [] "></a>".toList (behindName " ></a>".toList)) :=
  have hparse : ∃ r, parse "<a ></a>".toList = .ok ({ name := "a" }, r) := ⟨_, rfl⟩
  have hspaces : ∀ d ∈ ([] : List Char), isSpace d = true := by simp
  ⟨hparse, gap_behindName, hspaces, lineBreak_iff hparse gap_behindName hspaces⟩

/-- In front of the key of an attribute a line break does not do for a space. -/
theorem space_not_lineBreak : isSpace ' ' = true ∧
    (parse "<a b=\"1\"></a>".toList).isOk = true ∧
    (parse "<a\nb=\"1\"></a>".toList).isOk = false := by
  decide +kernel

end Replaced

end Ctguard.XML
