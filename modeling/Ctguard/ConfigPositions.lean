import Ctguard.ConfigEntries

/-!
# The positions in a configuration

The positions of the tokens of a text grow strictly while their numbers have 32 bits, so each
group is inserted behind those that are written in front of it.
-/

namespace Ctguard

namespace Position

/-- The place of a position in their order. -/
def rank (p : Position) : ℕ := p.lineNumber.toNat * 2 ^ 32 + p.lineIndent.toNat

theorem less_iff {p q : Position} : p.less q = true ↔ p.rank < q.rank := by
  have hp := p.lineIndent.toNat_lt
  have hq := q.lineIndent.toNat_lt
  rw [less, rank, rank]
  split
  case isTrue h => rw [decide_eq_true_eq, UInt32.lt_iff_toNat_lt, h]; omega
  case isFalse h =>
    have hne : p.lineNumber.toNat ≠ q.lineNumber.toNat := fun heq => h (UInt32.toNat_inj.mp heq)
    rw [decide_eq_true_eq, UInt32.lt_iff_toNat_lt]
    omega

theorem not_less_of_less {p q : Position} (h : p.less q = true) : q.less p = false := by
  rw [Bool.eq_false_iff, ne_eq, less_iff]
  rw [less_iff] at h
  omega

/-- The position behind so many characters, where no number has wrapped around. -/
def Within (n : ℕ) (p : Position) : Prop := p.lineNumber.toNat ≤ n + 1 ∧ p.lineIndent.toNat ≤ n

variable {p : Position} {n : ℕ}

theorem Within.rank_lt_charAdvance (h : p.Within n) (hn : n + 1 < 2 ^ 32) :
    p.rank < p.charAdvance.rank ∧ p.charAdvance.Within (n + 1) := by
  obtain ⟨hnumber, hindent⟩ := h
  have hadd : (p.lineIndent + 1).toNat = p.lineIndent.toNat + 1 := by
    rw [UInt32.toNat_add, UInt32.toNat_one]
    omega
  simp only [rank, Within, charAdvance, hadd]
  omega

theorem Within.rank_lt_lineBreak (h : p.Within n) (hn : n + 2 < 2 ^ 32) :
    p.rank < p.lineBreak.rank ∧ p.lineBreak.Within (n + 1) := by
  obtain ⟨hnumber, hindent⟩ := h
  have hadd : (p.lineNumber + 1).toNat = p.lineNumber.toNat + 1 := by
    rw [UInt32.toNat_add, UInt32.toNat_one]
    omega
  have hlt := p.lineIndent.toNat_lt
  simp only [rank, Within, lineBreak, hadd, UInt32.toNat_zero]
  omega

theorem Within.rank_le_past (h : p.Within n) (hn : n + 2 < 2 ^ 32) (c : Char) :
    p.rank ≤ (p.past c).rank ∧ (p.past c).Within (n + 1) := by
  rw [past]
  split
  · exact ⟨(h.rank_lt_lineBreak hn).1.le, (h.rank_lt_lineBreak hn).2⟩
  split
  · exact ⟨Nat.le_refl _, Nat.le_succ_of_le h.1, Nat.le_succ_of_le h.2⟩
  · have hadvance := h.rank_lt_charAdvance (by omega)
    exact ⟨hadvance.1.le, hadvance.2⟩

theorem Within.rank_le_pastAll (h : p.Within n) {cs : List Char}
    (hn : n + cs.length + 1 < 2 ^ 32) :
    p.rank ≤ (p.pastAll cs).rank ∧ (p.pastAll cs).Within (n + cs.length) := by
  induction cs generalizing p n with
  | nil => exact ⟨Nat.le_refl _, h⟩
  | cons c cs ih =>
    rw [List.length_cons] at hn ⊢
    obtain ⟨hle, hwithin⟩ := h.rank_le_past (by omega) c
    obtain ⟨hrest, hall⟩ := ih hwithin (by omega)
    exact ⟨hle.trans hrest, by rw [Nat.add_comm cs.length, ← Nat.add_assoc]; exact hall⟩

end Position

/-- The first character of a token ends no line. -/
theorem past_head {p : Piece} {token : TokenType × String} (hvalid : p.Valid)
    (htoken : p.token? = some token) (pos : Position) : pos.past p.head = pos.charAdvance := by
  have hspace : isSpace p.head = false := by
    cases p with
    | blank | comment => cases htoken
    | quoted q cs | unclosed q cs => rcases hvalid.1 with rfl | rfl <;> rfl
    | word c cs => exact not_isSpace (.inl hvalid.1)
    | number c cs => exact not_isSpace (.inr hvalid.1)
    | mark c =>
      simp only [Piece.Valid, Piece.isMark, Bool.and_eq_true, Bool.not_eq_true'] at hvalid
      exact hvalid.1.1.1.1.1.1
  have hbreak : p.head ≠ '\n' := fun h => by rw [h] at hspace; revert hspace; decide
  have hreturn : p.head ≠ '\r' := fun h => by rw [h] at hspace; revert hspace; decide
  rw [Position.past, if_neg hbreak, if_neg hreturn]

/-- Each token but the last stands behind those in front of it. -/
def Rising (ts : List Token) : Prop :=
  ts.dropLast.Pairwise fun t u => t.position.less u.position = true

theorem dropLast_cons_tokensAt (t : Token) (pos : Position) (ps : List Piece) :
    (t :: tokensAt pos ps).dropLast = t :: (tokensAt pos ps).dropLast :=
  List.dropLast_cons_of_ne_nil (ended_tokensAt pos ps).ne_nil

theorem rising_tokensAt {ps : List Piece} {rest : List Char} (h : Lexed ps rest) {pos : Position}
    {n : ℕ} (hpos : pos.Within n) (hn : n + (texts ps).length < 2 ^ 32) :
    Rising (tokensAt pos ps) ∧
      ∀ t ∈ (tokensAt pos ps).dropLast, pos.rank < t.position.rank := by
  induction h generalizing pos n with
  | done => exact ⟨.nil, fun t ht => absurd ht List.not_mem_nil⟩
  | @cons p ps rest valid stops behind ih =>
    rw [texts_cons, List.length_append, Piece.text, List.length_cons] at hn
    -- The numbers may only wrap around behind the last character.
    have hbehind : Rising (tokensAt (pos.pastAll p.text) ps) ∧
        ∀ t ∈ (tokensAt (pos.pastAll p.text) ps).dropLast,
          pos.rank < t.position.rank ∧
            (p.token?.isSome → (pos.past p.head).rank < t.position.rank) := by
      cases ps with
      | nil => exact ⟨.nil, fun t ht => absurd ht List.not_mem_nil⟩
      | cons q qs =>
        rw [texts_cons, List.length_append, Piece.text, List.length_cons] at hn
        obtain ⟨hle, hwithin⟩ := @Position.Within.rank_le_pastAll _ _ hpos p.text
          (by rw [Piece.text, List.length_cons]; omega)
        obtain ⟨hrising, hlt⟩ := ih hwithin (by
          rw [texts_cons, List.length_append, Piece.text, Piece.text, List.length_cons,
            List.length_cons]
          omega)
        refine ⟨hrising, fun t ht => ⟨hle.trans_lt (hlt t ht), fun htoken => ?_⟩⟩
        obtain ⟨token, htoken⟩ := Option.isSome_iff_exists.mp htoken
        have hhead := (hpos.rank_lt_charAdvance (by omega)).2
        rw [past_head valid htoken]
        obtain ⟨hover, -⟩ := @Position.Within.rank_le_pastAll _ _ hhead p.tail (by omega)
        refine (hover.trans ?_).trans_lt (hlt t ht)
        rw [Piece.text, Position.pastAll_cons, past_head valid htoken]
    obtain ⟨hrising, hlt⟩ := hbehind
    rw [tokensAt]
    split
    case h_1 type content htoken =>
      have hadvance := (hpos.rank_lt_charAdvance (by omega)).1
      rw [← past_head valid htoken] at hadvance
      rw [Rising, dropLast_cons_tokensAt, List.pairwise_cons]
      refine ⟨⟨fun t ht => Position.less_iff.mpr ((hlt t ht).2 (by rw [htoken]; rfl)), hrising⟩,
        ?_⟩
      rw [List.forall_mem_cons]
      exact ⟨hadvance, fun t ht => (hlt t ht).1⟩
    case h_2 => exact ⟨hrising, fun t ht => (hlt t ht).1⟩

namespace Entries

/-- The options of the entries. -/
def options : Entries → List ConfigOption
  | nil => []
  | option name _ value more rest =>
    ⟨name.content, value.content :: more.map Token.content, name.position⟩ :: rest.options
  | plain _ _ rest => rest.options
  | braced _ _ _ _ _ rest => rest.options

/-- The groups of the entries, with all that is written in them. -/
def groups : Entries → List ConfigGroup
  | nil => []
  | option _ _ _ _ rest => rest.groups
  | plain name keyword rest => .empty name.content keyword.content name.position :: rest.groups
  | braced name keyword _ body _ rest =>
    ⟨⟨name.content, keywordContent keyword, name.position, body.options⟩, body.groups⟩ ::
      rest.groups

/-- A group with the entries added, each at the end. -/
def addTo (es : Entries) (cg : ConfigGroup) : ConfigGroup :=
  ⟨{ cg.root with options := cg.root.options ++ es.options }, cg.children ++ es.groups⟩

end Entries

/-- The exceptions for a name or a keyword that has been used. -/
def ParseFault.IsDuplicate : ParseFault → Prop
  | keyDefined _ _ => True
  | subgroupDefined _ _ => True
  | _ => False

section Building

variable {cg g : ConfigGroup} {es : Entries}

/-- A group that stands behind the others is inserted at the end. -/
theorem insertAt_last {gs : List ConfigGroup}
    (h : ∀ x ∈ gs, x.root.pos.less g.root.pos = true) :
    ConfigGroup.insertAt g gs = some (gs ++ [g]) := by
  induction gs with
  | nil => rfl
  | cons x gs ih =>
    obtain ⟨hx, hgs⟩ := List.forall_mem_cons.mp h
    rw [ConfigGroup.insertAt, Position.not_less_of_less hx, if_neg Bool.false_ne_true, if_pos hx,
      ih hgs]
    rfl

theorem emplaceGroup_last (h : ∀ x ∈ cg.children, x.root.pos.less g.root.pos = true)
    (position : Position) :
    cg.emplaceGroup g position = .ok ⟨cg.root, cg.children ++ [g]⟩ := by
  rw [ConfigGroup.emplaceGroup, insertAt_last h]

/-- A value, unless a name or a keyword has been used. -/
def DuplicateOr {α : Type} (r : Except ParseException α) (a : α) : Prop :=
  (∃ e, r = .error e ∧ e.fault.IsDuplicate) ∨ r = .ok a

theorem DuplicateOr.bind {α β : Type} {r : Except ParseException α}
    {f : α → Except ParseException β} {a : α} {b : β} (h : DuplicateOr r a)
    (hf : DuplicateOr (f a) b) : DuplicateOr (r >>= f) b := by
  rcases h with ⟨e, rfl, he⟩ | rfl
  · exact .inl ⟨e, rfl, he⟩
  · exact hf

theorem checkKey_duplicateOr (cg : ConfigGroup) (name : Token) :
    DuplicateOr (cg.checkKey name) () := by
  rw [ConfigGroup.checkKey]
  cases cg.option? name.content with
  | none => exact .inr rfl
  | some o => exact .inl ⟨_, rfl, trivial⟩

theorem emplaceOption_duplicateOr (cg : ConfigGroup) (name : Token) (options : List String) :
    DuplicateOr (do cg.checkKey name; cg.emplaceOption ⟨name.content, options, name.position⟩)
      ⟨{ cg.root with options := cg.root.options ++ [⟨name.content, options, name.position⟩] },
        cg.children⟩ := by
  simp only [ConfigGroup.checkKey, ConfigGroup.emplaceOption, bind, Except.bind]
  cases cg.option? name.content with
  | none => exact .inr rfl
  | some o => exact .inl ⟨_, rfl, trivial⟩

theorem checkKeyword_duplicateOr (cg : ConfigGroup) (keyword : Option Token) (opening : Token) :
    DuplicateOr (cg.checkKeyword keyword opening) () := by
  cases keyword with
  | none => exact .inr rfl
  | some k =>
    simp only [ConfigGroup.checkKeyword]
    cases cg.subgroup? k.content with
    | none => exact .inr rfl
    | some sg => exact .inl ⟨_, rfl, trivial⟩

/-- Entries at growing positions are added to the group, unless one of them has been defined. -/
theorem Entries.build_rising
    (hrising : es.tokens.Pairwise fun t u => t.position.less u.position = true)
    (hbefore : ∀ x ∈ cg.children, ∀ t ∈ es.tokens, x.root.pos.less t.position = true) :
    DuplicateOr (es.build cg) (es.addTo cg) := by
  induction es generalizing cg with
  | nil =>
    obtain ⟨b, gs⟩ := cg
    exact .inr (by simp [build, addTo, options, groups])
  | option name equals value more rest ih =>
    have hrest : rest.tokens.Sublist (option name equals value more rest).tokens := by
      simp only [tokens, ← List.cons_append]
      exact List.sublist_append_right _ _
    have hadd : (option name equals value more rest).addTo cg = rest.addTo
        ⟨{ cg.root with options := cg.root.options ++
          [⟨name.content, value.content :: more.map Token.content, name.position⟩] },
          cg.children⟩ := by
      simp [addTo, options, groups]
    have hbuild : (option name equals value more rest).build cg = (do
        cg.checkKey name
        cg.emplaceOption
          ⟨name.content, value.content :: more.map Token.content, name.position⟩) >>=
          rest.build := by
      rw [build]
      cases cg.checkKey name <;> rfl
    rw [hadd, hbuild]
    exact (emplaceOption_duplicateOr cg name _).bind
      (ih (hrising.sublist hrest) fun x hx t ht => hbefore x hx t (hrest.subset ht))
  | plain name keyword rest ih =>
    have hrest : rest.tokens.Sublist (plain name keyword rest).tokens :=
      (List.sublist_cons_self _ _).trans (List.sublist_cons_self _ _)
    have hadd : (plain name keyword rest).addTo cg = rest.addTo
        ⟨cg.root,
          cg.children ++ [ConfigGroup.empty name.content keyword.content name.position]⟩ := by
      simp [addTo, options, groups]
    rw [hadd, build]
    refine (checkKey_duplicateOr cg name).bind ?_
    rw [emplaceGroup_last (g := .empty name.content keyword.content name.position)
      fun x hx => hbefore x hx name List.mem_cons_self]
    refine ih (hrising.sublist hrest) fun x hx t ht => ?_
    rcases List.mem_append.mp hx with hx | hx
    · exact hbefore x hx t (hrest.subset ht)
    · rw [List.mem_singleton] at hx
      rw [hx]
      exact List.rel_of_pairwise_cons hrising (List.mem_cons_of_mem _ ht)
  | braced name keyword opening body closing rest ihBody ihRest =>
    have htokens : (braced name keyword opening body closing rest).tokens =
      name :: (keyword.toList ++ [opening] ++ body.tokens ++ [closing] ++ rest.tokens) := by
        simp [tokens]
    have hrest : rest.tokens.Sublist (braced name keyword opening body closing rest).tokens := by
      rw [htokens]
      exact (List.sublist_append_right _ _).cons _
    have hbody : body.tokens.Sublist (braced name keyword opening body closing rest).tokens := by
      rw [htokens]
      exact ((List.sublist_append_right _ _).trans ((List.sublist_append_left _ _).trans
        (List.sublist_append_left _ _))).cons _
    have hadd : (braced name keyword opening body closing rest).addTo cg = rest.addTo
        ⟨cg.root, cg.children ++ [body.addTo
          (ConfigGroup.empty name.content (keywordContent keyword) name.position)]⟩ := by
      simp [addTo, options, groups, ConfigGroup.empty]
    rw [hadd, build]
    refine (checkKey_duplicateOr cg name).bind ((checkKeyword_duplicateOr cg keyword opening).bind
      ((ihBody (hrising.sublist hbody) fun x hx => absurd hx List.not_mem_nil).bind ?_))
    rw [emplaceGroup_last (g := body.addTo (.empty name.content (keywordContent keyword)
      name.position)) fun x hx => hbefore x hx name (by simp [htokens])]
    refine ihRest (hrising.sublist hrest) fun x hx t ht => ?_
    rcases List.mem_append.mp hx with hx | hx
    · exact hbefore x hx t (hrest.subset ht)
    · rw [List.mem_singleton] at hx
      rw [hx]
      rw [htokens] at hrising
      exact List.rel_of_pairwise_cons hrising (List.mem_append_right _ ht)

end Building

/-- The exceptions for what could not be inserted. -/
def ParseFault.NotInserted : ParseFault → Prop
  | groupNotInserted _ => True
  | optionNotInserted _ => True
  | _ => False

section Refusals

variable {cg g : ConfigGroup} {needClose : Bool} {ts us mid : List Token} {n : ℕ}
  {e : ParseException} {p : Production}

theorem behindName_fault {name : Token} (h : behindName cg name n ts = .error e) :
    ¬ e.fault.NotInserted := by
  simp only [behindName] at h
  split at h
  · cases h
  split at h
  · simp only [behindKeyword] at h
    split at h
    · split at h
      · cases h; exact not_false
      · cases h
    · cases h
  split at h
  · cases h; exact not_false
  split at h
  · cases h; exact not_false
  · cases h

theorem production_fault (h : production needClose cg n ts = .error e) :
    ¬ e.fault.NotInserted := by
  simp only [production] at h
  split at h
  · split at h
    · cases h; exact not_false
    · exact behindName_fault h
  split at h
  · cases h
  split at h
  · split at h
    · cases h; exact not_false
    · cases h
  · cases h; exact not_false

/-- Where an entry is written. -/
def Production.start : Production → Option Position
  | opening _ _ pos _ => some pos
  | plain _ _ pos _ => some pos
  | option o => some o.pos
  | closing => none

/-- An entry begins with its name, and stands there. -/
theorem Produces.exists_name (h : Produces cg ts p mid) :
    ∃ name used, ts = name :: (used ++ mid) ∧ p.start = some name.position := by
  cases h with
  | @option name equals value more => exact ⟨name, equals :: value :: more, rfl, rfl⟩
  | @plain name keyword => exact ⟨name, [keyword], rfl, rfl⟩
  | @opening name brace => exact ⟨name, [brace], rfl, rfl⟩
  | @keyword name keyword brace => exact ⟨name, [keyword, brace], rfl, rfl⟩

theorem emplaceGroup_root {cg' : ConfigGroup} {position : Position}
    (h : cg.emplaceGroup g position = .ok cg') : cg'.root = cg.root := by
  rw [ConfigGroup.emplaceGroup] at h
  split at h
  · cases h; rfl
  · cases h

theorem emplaceOption_children {cg' : ConfigGroup} {o : ConfigOption}
    (h : cg.emplaceOption o = .ok cg') :
    cg'.children = cg.children ∧ cg'.root.pos = cg.root.pos := by
  rw [ConfigGroup.emplaceOption] at h
  split at h
  · cases h
  · cases h; exact ⟨rfl, rfl⟩

theorem Parses.root_pos (h : Parses needClose cg ts (.ok (g, us))) :
    g.root.pos = cg.root.pos := by
  generalize hr : Except.ok (g, us) = r at h
  induction h generalizing g us with
  | throws | plainThrows | bodyThrows | openingThrows => cases hr
  | closing => cases hr; rfl
  | option _ _ emplace _ ih => rw [ih hr, (emplaceOption_children emplace).2]
  | plain _ _ emplace _ ih => rw [ih hr, emplaceGroup_root emplace]
  | opening _ _ _ emplace _ _ ih => rw [ih hr, emplaceGroup_root emplace]

/-- The groups that are there stand in front of the tokens that are left. -/
def Before (cg : ConfigGroup) (ts : List Token) : Prop :=
  Rising ts ∧ ∀ x ∈ cg.children, ∀ t ∈ ts.dropLast, x.root.pos.less t.position = true

theorem Before.children {cg' : ConfigGroup} (h : Before cg ts) (hsame : cg'.children = cg.children) :
    Before cg' ts := ⟨h.1, hsame ▸ h.2⟩

theorem Before.suffix (h : Before cg (us ++ ts)) (hts : ts ≠ []) : Before cg ts := by
  obtain ⟨hrising, hbefore⟩ := h
  rw [Rising, List.dropLast_append_of_ne_nil hts] at hrising
  rw [List.dropLast_append_of_ne_nil hts] at hbefore
  exact ⟨hrising.sublist (List.sublist_append_right _ _),
    fun x hx t ht => hbefore x hx t (List.mem_append_right _ ht)⟩

/-- A group at the first of the tokens is inserted behind the others. -/
theorem Before.emplaceGroup {name : Token} (h : Before cg (name :: (us ++ ts))) (hts : ts ≠ [])
    (hg : g.root.pos = name.position) (position : Position) :
    ∃ cg', cg.emplaceGroup g position = .ok cg' ∧ Before cg' ts := by
  have hdrop : (name :: (us ++ ts)).dropLast = name :: (us ++ ts.dropLast) := by
    rw [← List.cons_append, List.dropLast_append_of_ne_nil hts, List.cons_append]
  have hrest := @Before.suffix _ _ (name :: us) h hts
  obtain ⟨hrising, hbefore⟩ := h
  rw [Rising, hdrop] at hrising
  rw [hdrop] at hbefore
  refine ⟨_, emplaceGroup_last (fun x hx => ?_) position, hrest.1, fun x hx t ht => ?_⟩
  · rw [hg]
    exact hbefore x hx name List.mem_cons_self
  · rcases List.mem_append.mp hx with hx | hx
    · exact hrest.2 x hx t ht
    · rw [List.mem_singleton] at hx
      rw [hx, hg]
      exact List.rel_of_pairwise_cons hrising (List.mem_append_right _ ht)

/-- A group that has been read is inserted behind the others, too. -/
theorem Before.emplaceBody {name keyword : String} {pos brace : Position} {rest : List Token}
    (h : Before cg ts) (turn : Produces cg ts (.opening name keyword pos brace) mid)
    (ended : Ended mid) (body : Parses true (.empty name keyword pos) mid (.ok (g, rest))) :
    ∃ cg', cg.emplaceGroup g brace = .ok cg' ∧ Before cg' rest := by
  obtain ⟨first, used, rfl, hpos⟩ := turn.exists_name
  obtain ⟨es, closing, behind, rfl, _, _, hcloses⟩ := body.exists_entries
  have hrest := (body.ended_rest ended).1.ne_nil
  cases hcloses with
  | brace notName isBrace =>
    have htokens : used ++ (es.tokens ++ closing :: rest) =
        used ++ es.tokens ++ [closing] ++ rest := by simp
    rw [htokens] at h
    exact h.emplaceGroup hrest (body.root_pos.trans (Option.some.inj hpos)) brace

/-- At growing positions, everything can be inserted. -/
theorem Parses.fault (h : Parses needClose cg ts (.error e)) (hbefore : Before cg ts) :
    ¬ e.fault.NotInserted := by
  generalize hr : Except.error e = r at h
  induction h with
  | throws turn => cases hr; exact production_fault turn
  | closing => cases hr
  | option turn ended emplace _ ih =>
    obtain ⟨name, used, rfl, _⟩ := turn.exists_name
    exact ih ((@Before.suffix _ _ (name :: used) hbefore ended.ne_nil).children
      (emplaceOption_children emplace).1) hr
  | plainThrows turn ended emplace =>
    obtain ⟨name, used, rfl, hpos⟩ := turn.exists_name
    obtain ⟨cg', hcg', _⟩ := hbefore.emplaceGroup ended.ne_nil (g := .empty _ _ _)
      (Option.some.inj hpos) _
    cases hcg'.symm.trans emplace
  | plain turn ended emplace _ ih =>
    obtain ⟨name, used, rfl, hpos⟩ := turn.exists_name
    obtain ⟨cg', hcg', hbehind⟩ := hbefore.emplaceGroup ended.ne_nil (g := .empty _ _ _)
      (Option.some.inj hpos) _
    cases hcg'.symm.trans emplace
    exact ih hbehind hr
  | bodyThrows turn ended body ih =>
    obtain ⟨name, used, rfl, _⟩ := turn.exists_name
    refine ih ⟨(@Before.suffix _ _ (name :: used) hbefore ended.ne_nil).1, fun x hx => ?_⟩ hr
    exact absurd hx List.not_mem_nil
  | openingThrows turn ended body emplace =>
    obtain ⟨cg', hcg', _⟩ := hbefore.emplaceBody turn ended body
    cases hcg'.symm.trans emplace
  | opening turn ended body emplace _ _ ih =>
    obtain ⟨cg', hcg', hbehind⟩ := hbefore.emplaceBody turn ended body
    cases hcg'.symm.trans emplace
    exact ih hbehind hr

end Refusals

end Ctguard
