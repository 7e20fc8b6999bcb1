import Ctguard.ConfigTokens

/-!
# What is written in a configuration

The entries of a group with the tokens they are written with, and the group that is built from
them. The parser builds the entries whose tokens it is given, and accepts nothing else.
-/

namespace Ctguard

/-- The entries of a group, in the order in which they are written. -/
inductive Entries where
  | nil
  | option (name equals value : Token) (more : List Token) (rest : Entries)
  | plain (name keyword : Token) (rest : Entries)
  | braced (name : Token) (keyword : Option Token) (opening : Token) (body : Entries)
      (closing : Token) (rest : Entries)

namespace ConfigGroup

def checkKey (cg : ConfigGroup) (name : Token) : Except ParseException Unit :=
  match cg.option? name.content with
  | some o => .error ⟨name.position, .keyDefined name.content o.pos⟩
  | none => .ok ()

/-- Only a keyword that is written is compared with those of the other groups. -/
def checkKeyword (cg : ConfigGroup) (keyword : Option Token) (opening : Token) :
    Except ParseException Unit :=
  match keyword with
  | none => .ok ()
  | some k =>
    match cg.subgroup? k.content with
    | some sg => .error ⟨opening.position, .subgroupDefined k.content sg.root.pos⟩
    | none => .ok ()

end ConfigGroup

/-- What a group gets that is opened without a keyword. -/
def keywordContent (keyword : Option Token) : String := (keyword.map Token.content).getD ""

namespace Entries

def tokens : Entries → List Token
  | nil => []
  | option name equals value more rest => name :: equals :: value :: (more ++ rest.tokens)
  | plain name keyword rest => name :: keyword :: rest.tokens
  | braced name keyword opening body closing rest =>
    name :: (keyword.toList ++ opening :: (body.tokens ++ closing :: rest.tokens))

/-- The token that is read next, where some token follows the entries. -/
def first : Entries → Token → Token
  | nil, after => after
  | option name _ _ _ _, _ => name
  | plain name _ _, _ => name
  | braced name _ _ _ _ _, _ => name

/-- The tokens are of the kinds that the parser takes, in front of the token that follows. -/
def Valid : Entries → Token → Prop
  | nil, _ => True
  | option name equals value more rest, after =>
    name.isName = true ∧ (equals.isName = false ∧ equals.content = "=") ∧ value.isValue = true ∧
      (∀ t ∈ more, t.isValue = true ∧ t.position.lineNumber = value.position.lineNumber) ∧
      ¬ ((rest.first after).isValue = true ∧
        (rest.first after).position.lineNumber = value.position.lineNumber) ∧
      rest.Valid after
  | plain name keyword rest, after =>
    name.isName = true ∧ (keyword.isName = true ∧ keyword.isChar '{' = false) ∧
      (rest.first after).isChar '{' = false ∧ rest.Valid after
  | braced name keyword opening body closing rest, after =>
    name.isName = true ∧ (∀ k ∈ keyword, k.isName = true ∧ k.isChar '{' = false) ∧
      opening.isChar '{' = true ∧ body.Valid closing ∧
      (closing.isName = false ∧ closing.isChar '}' = true) ∧ rest.Valid after

/-- The group that the entries make of what it was. -/
def build : Entries → ConfigGroup → Except ParseException ConfigGroup
  | nil, cg => .ok cg
  | option name _ value more rest, cg => do
    cg.checkKey name
    let cg ← cg.emplaceOption
      ⟨name.content, value.content :: more.map Token.content, name.position⟩
    rest.build cg
  | plain name keyword rest, cg => do
    cg.checkKey name
    let cg ← cg.emplaceGroup (.empty name.content keyword.content name.position) keyword.position
    rest.build cg
  | braced name keyword opening body _ rest, cg => do
    cg.checkKey name
    cg.checkKeyword keyword opening
    let g ← body.build (.empty name.content (keywordContent keyword) name.position)
    let cg ← cg.emplaceGroup g opening.position
    rest.build cg

end Entries

section Reading

variable {cg g : ConfigGroup} {needClose : Bool} {ts behind us : List Token} {after : Token}
  {es : Entries} {r : Except ParseException (ConfigGroup × List Token)}

theorem checkKey_ok_iff {name : Token} :
    cg.checkKey name = .ok () ↔ cg.option? name.content = none := by
  rw [ConfigGroup.checkKey]
  cases cg.option? name.content with
  | none => simp
  | some o => simp

theorem nextToken_tokens : nextToken (es.tokens ++ after :: behind) = es.first after := by
  cases es <;> rfl

/-- What the parser accepts is built from the entries it has read. -/
theorem Parses.exists_entries (h : Parses needClose cg ts (.ok (g, us))) :
    ∃ (es : Entries) (after : Token) (behind : List Token), ts = es.tokens ++ after :: behind ∧
      es.Valid after ∧ es.build cg = .ok g ∧ Closes needClose (after :: behind) us := by
  generalize hr : Except.ok (g, us) = r at h
  induction h generalizing g us with
  | throws | plainThrows | bodyThrows | openingThrows => cases hr
  | closing closes =>
    cases hr
    cases closes with
    | brace notName isBrace => exact ⟨.nil, _, _, rfl, trivial, rfl, .brace notName isBrace⟩
    | eof type => exact ⟨.nil, _, _, rfl, trivial, rfl, .eof type⟩
  | option turn ended emplace behind ih =>
    obtain ⟨es, after, us, rfl, hvalid, hbuild, hcloses⟩ := ih hr
    cases turn with
    | @option name equals value more _ isName key notName isEquals isValue line stop =>
      rw [nextToken_tokens] at stop
      refine ⟨.option name equals value more es, after, us, ?_, ?_, ?_, hcloses⟩
      · simp [Entries.tokens]
      · exact ⟨isName, ⟨notName, isEquals⟩, isValue, line, stop, hvalid⟩
      · rw [Entries.build, checkKey_ok_iff.mpr key, emplace]
        exact hbuild
  | plain turn ended emplace behind ih =>
    obtain ⟨es, after, us, rfl, hvalid, hbuild, hcloses⟩ := ih hr
    cases turn with
    | @plain name keyword _ isName key keywordName noBrace stop =>
      rw [nextToken_tokens] at stop
      refine ⟨.plain name keyword es, after, us, rfl, ?_, ?_, hcloses⟩
      · exact ⟨isName, ⟨keywordName, noBrace⟩, stop, hvalid⟩
      · rw [Entries.build, checkKey_ok_iff.mpr key, emplace]
        exact hbuild
  | opening turn ended body emplace behind ihBody ihBehind =>
    obtain ⟨bs, closing, rest, rfl, hbody, hbuildBody, hclosesBody⟩ := ihBody rfl
    obtain ⟨es, after, us, rfl, hvalid, hbuild, hcloses⟩ := ihBehind hr
    cases hclosesBody with
    | brace notName isBrace =>
    cases turn with
    | @opening name brace _ isName key opens =>
      refine ⟨.braced name none brace bs closing es, after, us, ?_, ?_, ?_, hcloses⟩
      · simp [Entries.tokens]
      · exact ⟨isName, by simp, opens, hbody, ⟨notName, isBrace⟩, hvalid⟩
      · simp only [Entries.build, checkKey_ok_iff.mpr key, ConfigGroup.checkKeyword,
          keywordContent, Option.map_none, Option.getD_none, bind, Except.bind, hbuildBody, emplace]
        exact hbuild
    | @keyword name keyword brace _ isName key keywordName noBrace opens subgroup =>
      refine ⟨.braced name (some keyword) brace bs closing es, after, us, ?_, ?_, ?_, hcloses⟩
      · simp [Entries.tokens]
      · refine ⟨isName, ?_, opens, hbody, ⟨notName, isBrace⟩, hvalid⟩
        intro k hk
        cases hk
        exact ⟨keywordName, noBrace⟩
      · simp only [Entries.build, checkKey_ok_iff.mpr key, ConfigGroup.checkKeyword, subgroup,
          keywordContent, Option.map_some, Option.getD_some, bind, Except.bind, hbuildBody, emplace]
        exact hbuild

theorem production_keyDefined {name : Token} {o : ConfigOption} (hname : name.isName = true)
    (hkey : cg.option? name.content = some o) (n : ℕ) :
    production needClose cg n (name :: ts) =
      .error ⟨name.position, .keyDefined name.content o.pos⟩ := by
  rw [production_cons, if_pos hname, hkey]

theorem production_subgroupDefined {name keyword brace : Token} {sg : ConfigGroup}
    (hname : name.isName = true) (hkey : cg.option? name.content = none)
    (hkeyword : keyword.isName = true) (hno : keyword.isChar '{' = false)
    (hbrace : brace.isChar '{' = true) (hsubgroup : cg.subgroup? keyword.content = some sg)
    (n : ℕ) :
    production needClose cg n (name :: keyword :: brace :: ts) =
      .error ⟨brace.position, .subgroupDefined keyword.content sg.root.pos⟩ := by
  simp [production, hname, hkey, behindName, hno, hkeyword, behindKeyword, hbrace, hsubgroup]

/-- The result, where some entries have been built. -/
def Resumes (needClose : Bool) (ts : List Token)
    (r : Except ParseException (ConfigGroup × List Token)) :
    Except ParseException ConfigGroup → Prop
  | .error e => r = .error e
  | .ok g => Parses needClose g ts r

/-- A group with braces is read where its body is, and what stands behind it. -/
theorem Produces.parses {name keyword : String} {pos brace : Position} {mid closing last : List Token}
    {body : Except ParseException ConfigGroup} {rest : ConfigGroup → Except ParseException ConfigGroup}
    (turn : Produces cg ts (.opening name keyword pos brace) mid) (ended : Ended mid)
    (hbody : ∀ {r}, Resumes true closing r body → Parses true (.empty name keyword pos) mid r)
    (hcloses : Closes true closing last)
    (hrest : ∀ {cg}, Resumes needClose behind r (rest cg) → Parses needClose cg last r)
    (hr : Resumes needClose behind r (do
      let g ← body
      let cg ← cg.emplaceGroup g brace
      rest cg)) : Parses needClose cg ts r := by
  simp only [bind, Except.bind] at hr
  cases body with
  | error e =>
    cases hr
    exact .bodyThrows turn ended (hbody rfl)
  | ok g =>
    have hparses := hbody (.closing hcloses)
    simp only [] at hr
    cases hemplace : cg.emplaceGroup g brace with
    | error e =>
      rw [hemplace] at hr
      cases hr
      exact .openingThrows turn ended hparses hemplace
    | ok cg' =>
      rw [hemplace] at hr
      exact .opening turn ended hparses hemplace (hrest hr)

/-- The parser builds the entries that it is given, up to the first that it refuses. -/
theorem Entries.Valid.parses (h : es.Valid after)
    (hended : Ended (es.tokens ++ after :: behind))
    (hr : Resumes needClose (after :: behind) r (es.build cg)) :
    Parses needClose cg (es.tokens ++ after :: behind) r := by
  induction es generalizing cg needClose after behind r with
  | nil => exact hr
  | option name equals value more rest ih =>
    obtain ⟨hname, ⟨hnotName, hequals⟩, hvalue, hmore, hstop, hrest⟩ := h
    rw [build, ConfigGroup.checkKey] at hr
    cases hkey : cg.option? name.content with
    | some o =>
      rw [hkey] at hr
      cases hr
      exact .throws (production_keyDefined hname hkey _)
    | none =>
      rw [hkey] at hr
      have htokens : (option name equals value more rest).tokens ++ after :: behind =
          name :: equals :: value :: (more ++ (rest.tokens ++ after :: behind)) := by
        simp [tokens]
      rw [htokens] at hended ⊢
      have hmid : Ended (rest.tokens ++ after :: behind) :=
        @Ended.of_append (name :: equals :: value :: more) _ hended (by simp)
      refine .option (.option hname hkey hnotName hequals hvalue hmore ?_) hmid
        (emplaceOption_eq hkey) (ih hrest hmid ?_)
      · rwa [nextToken_tokens]
      · simpa only [bind, Except.bind, emplaceOption_eq (o := ⟨name.content, _, _⟩) hkey] using hr
  | plain name keyword rest ih =>
    obtain ⟨hname, ⟨hkeyword, hno⟩, hstop, hrest⟩ := h
    rw [build, ConfigGroup.checkKey] at hr
    cases hkey : cg.option? name.content with
    | some o =>
      rw [hkey] at hr
      cases hr
      exact .throws (production_keyDefined hname hkey _)
    | none =>
      rw [hkey] at hr
      have hmid : Ended (rest.tokens ++ after :: behind) :=
        @Ended.of_append [name, keyword] _ hended (by simp)
      have hturn := @Produces.plain cg name keyword (rest.tokens ++ after :: behind) hname hkey
        hkeyword hno (by rwa [nextToken_tokens])
      simp only [bind, Except.bind] at hr
      cases hemplace : cg.emplaceGroup
          (.empty name.content keyword.content name.position) keyword.position with
      | error e =>
        rw [hemplace] at hr
        cases hr
        exact .plainThrows hturn hmid hemplace
      | ok cg' =>
        rw [hemplace] at hr
        exact .plain hturn hmid hemplace (ih hrest hmid hr)
  | braced name keyword opening body closing rest ihBody ihRest =>
    obtain ⟨hname, hkeyword, hopening, hbody, ⟨hnotName, hclosing⟩, hrest⟩ := h
    have htokens : (braced name keyword opening body closing rest).tokens ++ after :: behind =
        name :: (keyword.toList ++
          opening :: (body.tokens ++ closing :: (rest.tokens ++ after :: behind))) := by
      simp [tokens]
    rw [htokens] at hended ⊢
    have hopened : Ended (opening ::
        (body.tokens ++ closing :: (rest.tokens ++ after :: behind))) :=
      (hended.tail_of_ne_nil (by simp)).of_append (by simp)
    have hmid := hopened.tail_of_ne_nil (by simp)
    have hclosed : Ended (closing :: (rest.tokens ++ after :: behind)) := hmid.of_append (by simp)
    have hlast := hclosed.tail_of_ne_nil (by simp)
    rw [build, ConfigGroup.checkKey] at hr
    cases hkey : cg.option? name.content with
    | some o =>
      rw [hkey] at hr
      cases hr
      exact .throws (production_keyDefined hname hkey _)
    | none =>
      rw [hkey] at hr
      have hopen {us : List Token} (hturn : Produces cg us (.opening name.content
          (keywordContent keyword) name.position opening.position)
          (body.tokens ++ closing :: (rest.tokens ++ after :: behind)))
          (hr : Resumes needClose (after :: behind) r (do
            let g ← body.build (.empty name.content (keywordContent keyword) name.position)
            let cg ← cg.emplaceGroup g opening.position
            rest.build cg)) : Parses needClose cg us r :=
        hturn.parses hmid (ihBody hbody hmid) (.brace hnotName hclosing) (ihRest hrest hlast) hr
      cases keyword with
      | none => exact hopen (.opening hname hkey hopening) hr
      | some k =>
        obtain ⟨hk, hno⟩ := hkeyword k rfl
        cases hsubgroup : cg.subgroup? k.content with
        | some sg =>
          simp only [ConfigGroup.checkKeyword, hsubgroup] at hr
          cases hr
          exact .throws (production_subgroupDefined hname hkey hk hno hopening hsubgroup _)
        | none =>
          simp only [ConfigGroup.checkKeyword, hsubgroup] at hr
          exact hopen (.keyword hname hkey hk hno hopening hsubgroup) hr

end Reading

section Building

variable {cg cg' g : ConfigGroup} {es body rest : Entries}

/-- A group is inserted somewhere between the others. -/
theorem exists_of_insertAt {gs gs' : List ConfigGroup}
    (h : ConfigGroup.insertAt g gs = some gs') :
    ∃ front back, gs = front ++ back ∧ gs' = front ++ g :: back := by
  induction gs generalizing gs' with
  | nil =>
    cases h
    exact ⟨[], [], rfl, rfl⟩
  | cons x gs ih =>
    rw [ConfigGroup.insertAt] at h
    split at h
    · cases h
      exact ⟨[], x :: gs, rfl, rfl⟩
    split at h
    · rw [Option.map_eq_some_iff] at h
      obtain ⟨gs'', hinsert, rfl⟩ := h
      obtain ⟨front, back, rfl, rfl⟩ := ih hinsert
      exact ⟨x :: front, back, rfl, rfl⟩
    · cases h

theorem emplaceGroup_ok {position : Position} (h : cg.emplaceGroup g position = .ok cg') :
    ∃ front back, cg.children = front ++ back ∧ cg' = ⟨cg.root, front ++ g :: back⟩ := by
  rw [ConfigGroup.emplaceGroup] at h
  split at h
  case h_1 gs hinsert =>
    obtain ⟨front, back, hsplit, rfl⟩ := exists_of_insertAt hinsert
    cases h
    exact ⟨front, back, hsplit, rfl⟩
  case h_2 => cases h

theorem checkKey_ok {name : Token} {u : Unit} (h : cg.checkKey name = .ok u) :
    cg.option? name.content = none := checkKey_ok_iff.mp h

theorem build_option_ok {name equals value : Token} {more : List Token}
    (h : (Entries.option name equals value more rest).build cg = .ok g) :
    cg.option? name.content = none ∧
      rest.build ⟨{ cg.root with options := cg.root.options ++
        [⟨name.content, value.content :: more.map Token.content, name.position⟩] },
        cg.children⟩ = .ok g := by
  rw [Entries.build, bind_eq_ok] at h
  obtain ⟨_, hcheck, h⟩ := h
  have hkey := checkKey_ok_iff.mp hcheck
  rw [emplaceOption_eq hkey] at h
  exact ⟨hkey, h⟩

theorem build_plain_ok {name keyword : Token}
    (h : (Entries.plain name keyword rest).build cg = .ok g) :
    ∃ front back, cg.children = front ++ back ∧
      rest.build ⟨cg.root, front ++
        ConfigGroup.empty name.content keyword.content name.position :: back⟩ = .ok g := by
  rw [Entries.build, bind_eq_ok] at h
  obtain ⟨_, _, h⟩ := h
  obtain ⟨cg', hemplace, h⟩ := bind_eq_ok.mp h
  obtain ⟨front, back, hsplit, rfl⟩ := emplaceGroup_ok hemplace
  exact ⟨front, back, hsplit, h⟩

theorem checkKeyword_ok {keyword : Option Token} {opening : Token} {u : Unit}
    (h : cg.checkKeyword keyword opening = .ok u) :
    ∀ k ∈ keyword, cg.subgroup? k.content = none := by
  intro k hk
  cases hk
  rw [ConfigGroup.checkKeyword] at h
  cases hsubgroup : cg.subgroup? k.content with
  | none => rfl
  | some sg => simp [hsubgroup] at h

theorem build_braced_ok {name opening closing : Token} {keyword : Option Token}
    (h : (Entries.braced name keyword opening body closing rest).build cg = .ok g) :
    ∃ b front back, (∀ k ∈ keyword, cg.subgroup? k.content = none) ∧
      body.build (.empty name.content (keywordContent keyword) name.position) = .ok b ∧
      cg.children = front ++ back ∧ rest.build ⟨cg.root, front ++ b :: back⟩ = .ok g := by
  rw [Entries.build, bind_eq_ok] at h
  obtain ⟨_, _, h⟩ := h
  obtain ⟨_, hcheck, h⟩ := bind_eq_ok.mp h
  obtain ⟨b, hbody, h⟩ := bind_eq_ok.mp h
  obtain ⟨cg', hemplace, h⟩ := bind_eq_ok.mp h
  obtain ⟨front, back, hsplit, rfl⟩ := emplaceGroup_ok hemplace
  exact ⟨b, front, back, checkKeyword_ok hcheck, hbody, hsplit, h⟩

/-- The name, the keyword and the position of a group stay as they are. -/
theorem build_root (h : es.build cg = .ok g) :
    g.root.name = cg.root.name ∧ g.root.keyword = cg.root.keyword ∧ g.root.pos = cg.root.pos := by
  induction es generalizing cg with
  | nil => cases h; exact ⟨rfl, rfl, rfl⟩
  | option name equals value more rest ih =>
    have hroot := ih (build_option_ok h).2
    exact hroot
  | plain name keyword rest ih =>
    obtain ⟨_, _, _, hrest⟩ := build_plain_ok h
    have hroot := ih hrest
    exact hroot
  | braced name keyword opening body closing rest _ ih =>
    obtain ⟨_, _, _, _, _, _, hrest⟩ := build_braced_ok h
    have hroot := ih hrest
    exact hroot

end Building

end Ctguard
