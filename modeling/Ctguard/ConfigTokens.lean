import Ctguard.ConfigParser

/-!
# The parser on the tokens of a text

What the parser does depends on the tokens that it takes alone: two sources that hand out the same
tokens are read alike, so the lexer may be replaced by the list of its tokens. A list of tokens
bounds the turns of the loop, and each turn takes at least one token.
-/

namespace Ctguard

section Simulation

variable {σ τ α : Type} [TokenSource σ] [TokenSource τ]

/-- The sources hand out the same tokens. -/
structure SameTokens (R : σ → τ → Prop) : Prop where
  next : ∀ {s t}, R s t → nextToken s = nextToken t
  behind : ∀ {s t}, R s t → R (advance s) (advance t)

/-- The same result, with the sources at the same place. -/
inductive SameResult (R : σ → τ → Prop) :
    Except ParseException (α × σ) → Except ParseException (α × τ) → Prop
  | error (e : ParseException) : SameResult R (.error e) (.error e)
  | ok (a : α) {s : σ} {t : τ} (h : R s t) : SameResult R (.ok (a, s)) (.ok (a, t))

variable {R : σ → τ → Prop} {s : σ} {t : τ}

theorem moreValues_sameResult (hR : SameTokens R) (h : R s t) (line : UInt32) (n : ℕ) :
    (moreValues line n s).1 = (moreValues line n t).1 ∧
      R (moreValues line n s).2 (moreValues line n t).2 := by
  induction n generalizing s t with
  | zero => exact ⟨rfl, h⟩
  | succ n ih =>
    rw [moreValues, moreValues, hR.next h]
    split
    · obtain ⟨hvalues, hrest⟩ := ih (hR.behind h)
      exact ⟨congrArg (_ :: ·) hvalues, hrest⟩
    · exact ⟨rfl, h⟩

theorem behindKeyword_sameResult (hR : SameTokens R) (h : R s t) (cg : ConfigGroup)
    (name keyword : Token) :
    SameResult R (behindKeyword cg name keyword s) (behindKeyword cg name keyword t) := by
  simp only [behindKeyword, hR.next h]
  split
  · split
    · exact .error _
    · exact .ok _ (hR.behind h)
  · exact .ok _ h

theorem behindName_sameResult (hR : SameTokens R) (h : R s t) (cg : ConfigGroup) (name : Token)
    (n : ℕ) : SameResult R (behindName cg name n s) (behindName cg name n t) := by
  have hs := hR.behind h
  simp only [behindName, hR.next h, hR.next hs]
  split
  · exact .ok _ hs
  split
  · exact behindKeyword_sameResult hR hs cg name _
  split
  · exact .error _
  split
  · exact .error _
  · obtain ⟨hvalues, hrest⟩ := moreValues_sameResult hR (hR.behind hs)
      (nextToken (advance t)).position.lineNumber n
    rw [hvalues]
    exact .ok _ hrest

theorem production_sameResult (hR : SameTokens R) (h : R s t) (needClose : Bool) (cg : ConfigGroup)
    (n : ℕ) : SameResult R (production needClose cg n s) (production needClose cg n t) := by
  simp only [production, hR.next h]
  split
  · split
    · exact .error _
    · exact behindName_sameResult hR (hR.behind h) cg _ n
  split
  · exact .ok _ (hR.behind h)
  split
  · split
    · exact .error _
    · exact .ok _ (hR.behind h)
  · exact .error _

omit [TokenSource σ] [TokenSource τ] in
theorem orThrow_sameResult {β : Type} (r : Except ParseException α)
    {f : α → Option (Except ParseException (β × σ))}
    {g : α → Option (Except ParseException (β × τ))}
    (h : ∀ a, Option.Rel (SameResult R) (f a) (g a)) :
    Option.Rel (SameResult R) (orThrow r f) (orThrow r g) := by
  cases r with
  | error e => exact .some (.error e)
  | ok a => exact h a

/-- Sources that hand out the same tokens are parsed alike. -/
theorem parseGroup_sameResult (hR : SameTokens R) (h : R s t) (n : ℕ) (needClose : Bool)
    (cg : ConfigGroup) :
    Option.Rel (SameResult R) (parseGroup n needClose cg s) (parseGroup n needClose cg t) := by
  induction n generalizing needClose cg s t with
  | zero => exact .none
  | succ n ih =>
    rw [parseGroup, parseGroup]
    have hproduction := production_sameResult hR h needClose cg n
    cases hs : production needClose cg n s with
    | error e =>
      rw [hs] at hproduction
      cases ht : production needClose cg n t with
      | error e' =>
        rw [ht] at hproduction
        cases hproduction
        exact .some (.error e)
      | ok r => rw [ht] at hproduction; cases hproduction
    | ok r =>
      rw [hs] at hproduction
      cases ht : production needClose cg n t with
      | error e => rw [ht] at hproduction; cases hproduction
      | ok r' =>
        rw [ht] at hproduction
        cases hproduction with
        | @ok p s' t' hrest =>
          cases p with
          | closing => exact .some (.ok cg hrest)
          | option o => exact orThrow_sameResult _ fun cg => ih hrest needClose cg
          | plain name keyword pos position =>
            exact orThrow_sameResult _ fun cg => ih hrest needClose cg
          | opening name keyword pos brace =>
            have hbody := ih hrest true (.empty name keyword pos)
            simp only [orThrow]
            revert hbody
            generalize parseGroup n true (.empty name keyword pos) s' = b
            generalize parseGroup n true (.empty name keyword pos) t' = b'
            intro hbody
            cases hbody with
            | none => exact .none
            | some hbody =>
              cases hbody with
              | error e => exact .some (.error e)
              | ok g hrest => exact orThrow_sameResult _ fun cg => ih hrest needClose cg

end Simulation

/-- The token at the end of the input is the only one of its type. -/
inductive Ended : List Token → Prop
  | last {t : Token} (type : t.type = .eof) (content : t.content = "") : Ended [t]
  | cons {t : Token} {ts : List Token} (type : t.type ≠ .eof) (behind : Ended ts) : Ended (t :: ts)

theorem Token.ne_eof_of_isValue {t : Token} (h : t.isValue = true) : t.type ≠ .eof := by
  intro heof
  simp [Token.isValue, Token.isName, heof] at h

theorem Token.isValue_of_isName {t : Token} (h : t.isName = true) : t.isValue = true := by
  simp [Token.isValue, h]

theorem Token.content_ne_empty {t : Token} {c : Char} (h : t.isChar c = true) :
    t.content ≠ "" := by
  intro hempty
  simp [Token.isChar, hempty] at h

namespace Ended

variable {t : Token} {ts : List Token}

theorem ne_nil (h : Ended ts) : ts ≠ [] := by
  cases h <;> exact List.cons_ne_nil _ _

theorem exists_cons (h : Ended ts) : ∃ t us, ts = t :: us := List.exists_cons_of_ne_nil h.ne_nil

/-- A token that has some content is not the last one. -/
theorem tail (h : Ended (t :: ts)) (ht : t.content ≠ "") : Ended ts := by
  cases h with
  | last _ hcontent => exact absurd hcontent ht
  | cons _ behind => exact behind

theorem tail_of_isValue (h : Ended (t :: ts)) (ht : t.isValue = true) : Ended ts := by
  cases h with
  | last heof _ => exact absurd heof (Token.ne_eof_of_isValue ht)
  | cons _ behind => exact behind

theorem eq_nil (h : Ended (t :: ts)) (ht : t.type = .eof) : ts = [] := by
  cases h with
  | last => rfl
  | cons hne _ => exact absurd ht hne

theorem tail_of_ne_nil (h : Ended (t :: ts)) (hts : ts ≠ []) : Ended ts := by
  cases h with
  | last => exact absurd rfl hts
  | cons _ behind => exact behind

theorem of_append {us : List Token} (h : Ended (ts ++ us)) (hus : us ≠ []) : Ended us := by
  induction ts with
  | nil => exact h
  | cons t ts ih => exact ih (h.tail_of_ne_nil (List.append_ne_nil_of_right_ne_nil ts hus))

protected theorem advance (h : Ended ts) : Ended (advance ts) := by
  cases h with
  | last type content => exact .last type content
  | @cons t ts type behind =>
    obtain ⟨u, us, rfl⟩ := behind.exists_cons
    exact behind

end Ended

theorem length_advance_le (ts : List Token) : (advance ts).length ≤ ts.length := by
  match ts with
  | [] => exact Nat.le_refl _
  | [t] => exact Nat.le_refl _
  | _ :: t :: ts => exact Nat.le_succ _

@[simp] theorem nextToken_cons (t : Token) (ts : List Token) : nextToken (t :: ts) = t := rfl

theorem advance_cons (t : Token) {ts : List Token} (h : ts ≠ []) : advance (t :: ts) = ts := by
  cases ts with
  | nil => exact absurd rfl h
  | cons u us => rfl

@[simp] theorem advance_cons_cons (t u : Token) (ts : List Token) :
    advance (t :: u :: ts) = u :: ts := rfl

/-- The values that stand on a line, up to a token that is none of them. -/
theorem moreValues_eq {line : UInt32} {more rest : List Token} {n : ℕ}
    (hmore : ∀ t ∈ more, t.isValue = true ∧ t.position.lineNumber = line)
    (hrest : rest ≠ [])
    (hstop : ¬ ((nextToken rest).isValue = true ∧ (nextToken rest).position.lineNumber = line))
    (hn : more.length ≤ n) :
    moreValues line n (more ++ rest) = (more.map Token.content, rest) := by
  induction more generalizing n with
  | nil => cases n with
    | zero => rfl
    | succ n => rw [List.nil_append, moreValues, if_neg hstop, List.map_nil]
  | cons t more ih => cases n with
    | zero => cases hn
    | succ n =>
      obtain ⟨ht, hmore⟩ := List.forall_mem_cons.mp hmore
      have hne : more ++ rest ≠ [] := List.append_ne_nil_of_right_ne_nil _ hrest
      rw [List.cons_append, moreValues, nextToken_cons, if_pos ht, advance_cons t hne,
        ih hmore (Nat.le_of_succ_le_succ hn), List.map_cons]

/-- There is such a token behind the values. -/
theorem exists_moreValues {ts : List Token} (h : Ended ts) (line : UInt32) :
    ∃ more rest, ts = more ++ rest ∧ Ended rest ∧
      (∀ t ∈ more, t.isValue = true ∧ t.position.lineNumber = line) ∧
      ¬ ((nextToken rest).isValue = true ∧ (nextToken rest).position.lineNumber = line) := by
  induction h with
  | @last t type content =>
    refine ⟨[], [t], rfl, .last type content, by simp, ?_⟩
    rintro ⟨hvalue, _⟩
    exact Token.ne_eof_of_isValue hvalue type
  | @cons t ts type behind ih =>
    by_cases ht : t.isValue = true ∧ t.position.lineNumber = line
    · obtain ⟨more, rest, rfl, hended, hmore, hstop⟩ := ih
      exact ⟨t :: more, rest, rfl, hended, List.forall_mem_cons.mpr ⟨ht, hmore⟩, hstop⟩
    · exact ⟨[], t :: ts, rfl, .cons type behind, by simp, ht⟩

/-- What the turns of the loop that read an entry take from the tokens. -/
inductive Produces (cg : ConfigGroup) : List Token → Production → List Token → Prop
  | option {name equals value : Token} {more rest : List Token} (isName : name.isName = true)
      (key : cg.option? name.content = none) (notName : equals.isName = false)
      (isEquals : equals.content = "=") (isValue : value.isValue = true)
      (line : ∀ t ∈ more, t.isValue = true ∧
        t.position.lineNumber = value.position.lineNumber)
      (stop : ¬ ((nextToken rest).isValue = true ∧
        (nextToken rest).position.lineNumber = value.position.lineNumber)) :
      Produces cg (name :: equals :: value :: (more ++ rest))
        (.option ⟨name.content, value.content :: more.map Token.content, name.position⟩) rest
  | plain {name keyword : Token} {rest : List Token} (isName : name.isName = true)
      (key : cg.option? name.content = none) (keywordName : keyword.isName = true)
      (noBrace : keyword.isChar '{' = false) (stop : (nextToken rest).isChar '{' = false) :
      Produces cg (name :: keyword :: rest)
        (.plain name.content keyword.content name.position keyword.position) rest
  | opening {name brace : Token} {rest : List Token} (isName : name.isName = true)
      (key : cg.option? name.content = none) (isBrace : brace.isChar '{' = true) :
      Produces cg (name :: brace :: rest)
        (.opening name.content "" name.position brace.position) rest
  | keyword {name keyword brace : Token} {rest : List Token} (isName : name.isName = true)
      (key : cg.option? name.content = none) (keywordName : keyword.isName = true)
      (noBrace : keyword.isChar '{' = false)
      (isBrace : brace.isChar '{' = true) (subgroup : cg.subgroup? keyword.content = none) :
      Produces cg (name :: keyword :: brace :: rest)
        (.opening name.content keyword.content name.position brace.position) rest

/-- The turns of the loop that end a group. -/
inductive Closes : Bool → List Token → List Token → Prop
  | brace {t : Token} {rest : List Token} (notName : t.isName = false)
      (isBrace : t.isChar '}' = true) : Closes true (t :: rest) rest
  | eof {t : Token} (type : t.type = .eof) : Closes false [t] [t]

section Productions

variable {cg : ConfigGroup} {needClose : Bool} {ts rest : List Token} {n : ℕ} {p : Production}

theorem Produces.production_eq (h : Produces cg ts p rest) (hrest : Ended rest)
    (hn : ts.length ≤ n + 1) : production needClose cg n ts = .ok (p, rest) := by
  cases h with
  | option isName key notName isEquals isValue line stop =>
    rename_i name equals value more
    have hne : more ++ rest ≠ [] := List.append_ne_nil_of_right_ne_nil _ hrest.ne_nil
    have hbrace : equals.isChar '{' = false := by simp [Token.isChar, isEquals]
    have hvalues := moreValues_eq (n := n) line hrest.ne_nil stop
      (by simp only [List.length_cons, List.length_append] at hn; omega)
    simp [production, isName, key, behindName, hbrace, notName, isEquals, isValue,
      advance_cons value hne, hvalues]
  | plain isName key keywordName noBrace stop =>
    simp [production, isName, key, behindName, keywordName, noBrace, behindKeyword,
      advance_cons _ hrest.ne_nil, stop]
  | opening isName key isBrace =>
    simp [production, isName, key, behindName, isBrace, advance_cons _ hrest.ne_nil]
  | keyword isName key keywordName noBrace isBrace subgroup =>
    simp [production, isName, key, behindName, keywordName, noBrace, behindKeyword,
      advance_cons _ hrest.ne_nil, isBrace, subgroup]

theorem Closes.production_eq (h : Closes needClose ts rest) (hended : Ended ts) :
    production needClose cg n ts = .ok (.closing, rest) := by
  cases h with
  | @brace t rest notName isBrace =>
    have hrest := (hended.tail (Token.content_ne_empty isBrace)).ne_nil
    simp [production, notName, isBrace, advance_cons t hrest]
  | @eof t type =>
    have hname : t.isName = false := by simp [Token.isName, type]
    simp [production, hname, type]
    rfl

theorem behindKeyword_cases {name keyword : Token} (hended : Ended ts)
    (h : behindKeyword cg name keyword ts = .ok (p, rest)) :
    (nextToken ts).isChar '{' = false ∧ rest = ts ∧
        p = .plain name.content keyword.content name.position keyword.position ∨
      ∃ brace, ts = brace :: rest ∧ Ended rest ∧ brace.isChar '{' = true ∧
        cg.subgroup? keyword.content = none ∧
        p = .opening name.content keyword.content name.position brace.position := by
  obtain ⟨brace, us, rfl⟩ := hended.exists_cons
  rw [behindKeyword, nextToken_cons] at h
  cases hbrace : brace.isChar '{' with
  | false =>
    rw [hbrace, if_neg Bool.false_ne_true] at h
    obtain ⟨rfl, rfl⟩ := Prod.mk.inj (Except.ok.inj h)
    exact .inl ⟨hbrace, rfl, rfl⟩
  | true =>
    have hus := hended.tail (Token.content_ne_empty hbrace)
    simp only [hbrace, if_true, not_true_eq_false, if_false, advance_cons brace hus.ne_nil] at h
    cases hsubgroup : cg.subgroup? keyword.content with
    | some sg => rw [hsubgroup] at h; cases h
    | none =>
      rw [hsubgroup] at h
      obtain ⟨rfl, rfl⟩ := Prod.mk.inj (Except.ok.inj h)
      exact .inr ⟨brace, rfl, hus, hbrace, rfl, rfl⟩

theorem behindName_cases {name : Token} (hname : name.isName = true)
    (hkey : cg.option? name.content = none) (hended : Ended ts) (hn : ts.length ≤ n)
    (h : behindName cg name n ts = .ok (p, rest)) :
    Produces cg (name :: ts) p rest ∧ Ended rest := by
  obtain ⟨t, us, rfl⟩ := hended.exists_cons
  simp only [behindName, nextToken_cons] at h
  cases hbrace : t.isChar '{' with
  | true =>
    have hus := hended.tail (Token.content_ne_empty hbrace)
    rw [hbrace, if_pos rfl, advance_cons t hus.ne_nil] at h
    obtain ⟨rfl, rfl⟩ := Prod.mk.inj (Except.ok.inj h)
    exact ⟨.opening hname hkey hbrace, hus⟩
  | false =>
  rw [hbrace, if_neg Bool.false_ne_true] at h
  cases hkeyword : t.isName with
  | true =>
    have hus := hended.tail_of_isValue (Token.isValue_of_isName hkeyword)
    rw [hkeyword, if_pos rfl, advance_cons t hus.ne_nil] at h
    rcases behindKeyword_cases hus h with ⟨hstop, rfl, rfl⟩ |
      ⟨brace, rfl, hrest, hbrace', hsubgroup, rfl⟩
    · exact ⟨.plain hname hkey hkeyword hbrace hstop, hus⟩
    · exact ⟨.keyword hname hkey hkeyword hbrace hbrace' hsubgroup, hrest⟩
  | false =>
  rw [hkeyword, if_neg Bool.false_ne_true] at h
  by_cases hequals : t.content = "="
  · have hus := hended.tail (by rw [hequals]; decide)
    obtain ⟨value, vs, rfl⟩ := hus.exists_cons
    rw [if_neg (not_not.mpr hequals), advance_cons_cons, nextToken_cons] at h
    cases hvalue : value.isValue with
    | false => simp [hvalue] at h
    | true =>
      have hvs := hus.tail_of_isValue hvalue
      obtain ⟨more, rest', rfl, hrest, hmore, hstop⟩ :=
        exists_moreValues hvs value.position.lineNumber
      have hvalues := moreValues_eq (n := n) hmore hrest.ne_nil hstop
        (by simp only [List.length_cons, List.length_append] at hn; omega)
      simp only [hvalue, not_true_eq_false, if_false, advance_cons value hvs.ne_nil, hvalues] at h
      obtain ⟨rfl, rfl⟩ := Prod.mk.inj (Except.ok.inj h)
      exact ⟨.option hname hkey hkeyword hequals hvalue hmore hstop, hrest⟩
  · rw [if_pos hequals] at h
    cases h

theorem production_cons (needClose : Bool) (cg : ConfigGroup) (n : ℕ) (t : Token)
    (us : List Token) : production needClose cg n (t :: us) =
      if t.isName then
        match cg.option? t.content with
        | some o => .error ⟨t.position, .keyDefined t.content o.pos⟩
        | none => behindName cg t n (advance (t :: us))
      else if needClose ∧ t.isChar '}' then .ok (.closing, advance (t :: us))
      else if t.type = .eof then
        if needClose then .error ⟨t.position, .notClosed cg.root.name⟩
        else .ok (.closing, advance (t :: us))
      else .error ⟨t.position, .unknownToken t.content⟩ := rfl

/-- Every turn of the loop that throws nothing reads an entry, or ends the group. -/
theorem production_cases (hended : Ended ts) (hn : ts.length ≤ n + 1)
    (h : production needClose cg n ts = .ok (p, rest)) :
    (Produces cg ts p rest ∧ Ended rest) ∨
      (p = .closing ∧ Closes needClose ts rest) := by
  obtain ⟨t, us, rfl⟩ := hended.exists_cons
  rw [production_cons] at h
  by_cases hname : t.isName = true
  · have hus := hended.tail_of_isValue (Token.isValue_of_isName hname)
    rw [if_pos hname, advance_cons t hus.ne_nil] at h
    cases hkey : cg.option? t.content with
    | some o => rw [hkey] at h; cases h
    | none =>
      rw [hkey] at h
      exact .inl (behindName_cases hname hkey hus (Nat.le_of_succ_le_succ hn) h)
  rw [if_neg hname] at h
  by_cases hclose : needClose = true ∧ t.isChar '}' = true
  · obtain ⟨rfl, hbrace⟩ := hclose
    have hus := hended.tail (Token.content_ne_empty hbrace)
    rw [if_pos ⟨rfl, hbrace⟩, advance_cons t hus.ne_nil] at h
    obtain ⟨rfl, rfl⟩ := Prod.mk.inj (Except.ok.inj h)
    exact .inr ⟨rfl, .brace (Bool.eq_false_iff.mpr hname) hbrace⟩
  rw [if_neg hclose] at h
  by_cases heof : t.type = .eof
  · cases hended.eq_nil heof
    cases needClose with
    | true => rw [if_pos heof] at h; cases h
    | false =>
      rw [if_pos heof] at h
      obtain ⟨rfl, rfl⟩ := Prod.mk.inj (Except.ok.inj h)
      exact .inr ⟨rfl, .eof heof⟩
  · rw [if_neg heof] at h
    cases h

theorem moreValues_fuel (hended : Ended ts) (line : UInt32) {m : ℕ} (hn : ts.length ≤ n)
    (hm : ts.length ≤ m) : moreValues line n ts = moreValues line m ts := by
  obtain ⟨more, rest, rfl, hrest, hmore, hstop⟩ := exists_moreValues hended line
  rw [List.length_append] at hn hm
  rw [moreValues_eq hmore hrest.ne_nil hstop (by omega),
    moreValues_eq hmore hrest.ne_nil hstop (by omega)]

theorem behindName_fuel (hended : Ended ts) (cg : ConfigGroup) (name : Token) {m : ℕ}
    (hn : ts.length ≤ n) (hm : ts.length ≤ m) :
    behindName cg name n ts = behindName cg name m ts := by
  have hlength := (length_advance_le (advance ts)).trans (length_advance_le ts)
  simp only [behindName, moreValues_fuel hended.advance.advance _ (hlength.trans hn)
    (hlength.trans hm)]

theorem production_fuel (hended : Ended ts) (needClose : Bool) (cg : ConfigGroup) {m : ℕ}
    (hn : ts.length ≤ n + 1) (hm : ts.length ≤ m + 1) :
    production needClose cg n ts = production needClose cg m ts := by
  cases hended with
  | @last t type content =>
    have hname : ¬ t.isName = true := by simp [Token.isName, type]
    rw [production_cons, production_cons, if_neg hname, if_neg hname]
  | @cons t us type behind =>
    rw [production_cons, production_cons, advance_cons t behind.ne_nil,
      behindName_fuel behind cg t (Nat.le_of_succ_le_succ hn) (Nat.le_of_succ_le_succ hm)]

theorem Produces.length_lt (h : Produces cg ts p rest) : rest.length < ts.length := by
  cases h <;> simp only [List.length_cons, List.length_append] <;> omega

theorem emplaceOption_eq {o : ConfigOption} (h : cg.option? o.key = none) :
    cg.emplaceOption o =
      .ok ⟨{ cg.root with options := cg.root.options ++ [o] }, cg.children⟩ := by
  rw [ConfigGroup.emplaceOption, h]

theorem Produces.option_key {o : ConfigOption} (h : Produces cg ts (.option o) rest) :
    cg.option? o.key = none := by
  cases h
  assumption

end Productions

/-- What the parser comes to, turn by turn. -/
inductive Parses : Bool → ConfigGroup → List Token →
    Except ParseException (ConfigGroup × List Token) → Prop
  | throws {needClose : Bool} {cg : ConfigGroup} {ts : List Token} {e : ParseException}
      (turn : production needClose cg ts.length ts = .error e) :
      Parses needClose cg ts (.error e)
  | closing {needClose : Bool} {cg : ConfigGroup} {ts rest : List Token}
      (closes : Closes needClose ts rest) : Parses needClose cg ts (.ok (cg, rest))
  | option {needClose : Bool} {cg cg' : ConfigGroup} {ts mid : List Token} {o : ConfigOption}
      {r : Except ParseException (ConfigGroup × List Token)}
      (turn : Produces cg ts (.option o) mid) (ended : Ended mid)
      (emplace : cg.emplaceOption o = .ok cg') (behind : Parses needClose cg' mid r) :
      Parses needClose cg ts r
  | plainThrows {needClose : Bool} {cg : ConfigGroup} {ts mid : List Token}
      {name keyword : String} {pos position : Position} {e : ParseException}
      (turn : Produces cg ts (.plain name keyword pos position) mid) (ended : Ended mid)
      (emplace : cg.emplaceGroup (.empty name keyword pos) position = .error e) :
      Parses needClose cg ts (.error e)
  | plain {needClose : Bool} {cg cg' : ConfigGroup} {ts mid : List Token}
      {name keyword : String} {pos position : Position}
      {r : Except ParseException (ConfigGroup × List Token)}
      (turn : Produces cg ts (.plain name keyword pos position) mid) (ended : Ended mid)
      (emplace : cg.emplaceGroup (.empty name keyword pos) position = .ok cg')
      (behind : Parses needClose cg' mid r) : Parses needClose cg ts r
  | bodyThrows {needClose : Bool} {cg : ConfigGroup} {ts mid : List Token}
      {name keyword : String} {pos brace : Position} {e : ParseException}
      (turn : Produces cg ts (.opening name keyword pos brace) mid) (ended : Ended mid)
      (body : Parses true (.empty name keyword pos) mid (.error e)) :
      Parses needClose cg ts (.error e)
  | openingThrows {needClose : Bool} {cg g : ConfigGroup} {ts mid rest : List Token}
      {name keyword : String} {pos brace : Position} {e : ParseException}
      (turn : Produces cg ts (.opening name keyword pos brace) mid) (ended : Ended mid)
      (body : Parses true (.empty name keyword pos) mid (.ok (g, rest)))
      (emplace : cg.emplaceGroup g brace = .error e) : Parses needClose cg ts (.error e)
  | opening {needClose : Bool} {cg cg' g : ConfigGroup} {ts mid rest : List Token}
      {name keyword : String} {pos brace : Position}
      {r : Except ParseException (ConfigGroup × List Token)}
      (turn : Produces cg ts (.opening name keyword pos brace) mid) (ended : Ended mid)
      (body : Parses true (.empty name keyword pos) mid (.ok (g, rest)))
      (emplace : cg.emplaceGroup g brace = .ok cg') (behind : Parses needClose cg' rest r) :
      Parses needClose cg ts r

section Fuel

variable {cg g : ConfigGroup} {needClose : Bool} {ts rest : List Token} {n : ℕ}
  {r : Except ParseException (ConfigGroup × List Token)}

/-- A group with a closing brace leaves fewer tokens. -/
theorem Parses.ended_rest (hended : Ended ts) (h : Parses true cg ts (.ok (g, rest))) :
    Ended rest ∧ rest.length < ts.length := by
  generalize hclose : true = needClose at h
  generalize hr : Except.ok (g, rest) = r at h
  induction h generalizing g rest with
  | throws | plainThrows | bodyThrows | openingThrows => cases hr
  | closing closes =>
    cases hr
    cases closes with
    | brace notName isBrace =>
      exact ⟨hended.tail (Token.content_ne_empty isBrace), Nat.lt_succ_self _⟩
    | eof => cases hclose
  | option turn ended _ _ ih | plain turn ended _ _ ih =>
    obtain ⟨hrest, hlt⟩ := ih ended hclose hr
    exact ⟨hrest, hlt.trans turn.length_lt⟩
  | opening turn ended _ _ _ ihBody ihBehind =>
    obtain ⟨hmid, hbody⟩ := ihBody ended rfl rfl
    obtain ⟨hrest, hlt⟩ := ihBehind hmid hclose hr
    exact ⟨hrest, hlt.trans (hbody.trans turn.length_lt)⟩

theorem Ended.exists_fuel (hended : Ended ts) (hn : ts.length ≤ n) : ∃ m, n = m + 1 := by
  have hpos := List.length_pos_of_ne_nil hended.ne_nil
  exact Nat.exists_eq_succ_of_ne_zero (by omega)

/-- As many turns as there are tokens are enough. -/
theorem Parses.parseGroup_eq (hended : Ended ts) (hn : ts.length ≤ n)
    (h : Parses needClose cg ts r) : parseGroup n needClose cg ts = some r := by
  induction h generalizing n with
  | throws turn =>
    obtain ⟨n, rfl⟩ := hended.exists_fuel hn
    rw [parseGroup, production_fuel hended _ _ hn (Nat.le_succ _), turn]
    rfl
  | closing closes =>
    obtain ⟨n, rfl⟩ := hended.exists_fuel hn
    rw [parseGroup, closes.production_eq hended]
    rfl
  | option turn ended emplace _ ih =>
    obtain ⟨n, rfl⟩ := hended.exists_fuel hn
    have hmid := turn.length_lt
    rw [parseGroup, turn.production_eq ended hn]
    simp only [orThrow, emplace]
    exact ih ended (by omega)
  | plainThrows turn ended emplace =>
    obtain ⟨n, rfl⟩ := hended.exists_fuel hn
    rw [parseGroup, turn.production_eq ended hn]
    simp only [orThrow, emplace]
  | plain turn ended emplace _ ih =>
    obtain ⟨n, rfl⟩ := hended.exists_fuel hn
    have hmid := turn.length_lt
    rw [parseGroup, turn.production_eq ended hn]
    simp only [orThrow, emplace]
    exact ih ended (by omega)
  | bodyThrows turn ended body ih =>
    obtain ⟨n, rfl⟩ := hended.exists_fuel hn
    have hmid := turn.length_lt
    rw [parseGroup, turn.production_eq ended hn]
    simp only [orThrow, ih ended (n := n) (by omega), Option.bind_some]
  | openingThrows turn ended body emplace ih =>
    obtain ⟨n, rfl⟩ := hended.exists_fuel hn
    have hmid := turn.length_lt
    rw [parseGroup, turn.production_eq ended hn]
    simp only [orThrow, ih ended (n := n) (by omega), Option.bind_some, emplace]
  | opening turn ended body emplace _ ihBody ihBehind =>
    obtain ⟨n, rfl⟩ := hended.exists_fuel hn
    have hmid := turn.length_lt
    obtain ⟨hrest, hlt⟩ := body.ended_rest ended
    rw [parseGroup, turn.production_eq ended hn]
    simp only [orThrow, ihBody ended (n := n) (by omega), Option.bind_some, emplace]
    exact ihBehind hrest (by omega)

/-- The parser comes to a result. -/
theorem exists_parses (hended : Ended ts) (needClose : Bool) (cg : ConfigGroup) :
    ∃ r, Parses needClose cg ts r := by
  induction hn : ts.length using Nat.strong_induction_on generalizing ts needClose cg with
  | _ n ih =>
    subst hn
    cases hturn : production needClose cg ts.length ts with
    | error e => exact ⟨_, .throws hturn⟩
    | ok turn =>
      obtain ⟨p, mid⟩ := turn
      rcases production_cases hended (Nat.le_succ _) hturn with ⟨turn, ended⟩ | ⟨rfl, closes⟩
      · have hmid := turn.length_lt
        cases p with
        | closing => cases turn
        | option o =>
          obtain ⟨r, hr⟩ := ih _ hmid ended needClose _ rfl
          exact ⟨r, .option turn ended (emplaceOption_eq turn.option_key) hr⟩
        | plain name keyword pos position =>
          cases hemplace : cg.emplaceGroup (.empty name keyword pos) position with
          | error e => exact ⟨_, .plainThrows turn ended hemplace⟩
          | ok cg' =>
            obtain ⟨r, hr⟩ := ih _ hmid ended needClose cg' rfl
            exact ⟨r, .plain turn ended hemplace hr⟩
        | opening name keyword pos brace =>
          obtain ⟨r, hbody⟩ := ih _ hmid ended true (.empty name keyword pos) rfl
          cases r with
          | error e => exact ⟨_, .bodyThrows turn ended hbody⟩
          | ok r =>
            obtain ⟨g, rest⟩ := r
            obtain ⟨hrest, hlt⟩ := hbody.ended_rest ended
            cases hemplace : cg.emplaceGroup g brace with
            | error e => exact ⟨_, .openingThrows turn ended hbody hemplace⟩
            | ok cg' =>
              obtain ⟨r, hr⟩ := ih _ (hlt.trans hmid) hrest needClose cg' rfl
              exact ⟨r, .opening turn ended hbody hemplace hr⟩
      · exact ⟨_, .closing closes⟩

theorem parseGroup_eq_some_iff (hended : Ended ts) (hn : ts.length ≤ n) :
    parseGroup n needClose cg ts = some r ↔ Parses needClose cg ts r := by
  refine ⟨fun h => ?_, fun h => h.parseGroup_eq hended hn⟩
  obtain ⟨r', hr'⟩ := exists_parses hended needClose cg
  have heq := hr'.parseGroup_eq hended hn
  rw [h, Option.some.injEq] at heq
  exact heq ▸ hr'

/-- There is only one result. -/
theorem Parses.unique {r' : Except ParseException (ConfigGroup × List Token)}
    (hended : Ended ts) (h : Parses needClose cg ts r) (h' : Parses needClose cg ts r') :
    r = r' :=
  Option.some.inj ((h.parseGroup_eq hended (Nat.le_refl _)).symm.trans
    (h'.parseGroup_eq hended (Nat.le_refl _)))

end Fuel

section Texts

variable {pos : Position} {ps : List Piece} {rest : List Char}

theorem tokensOf_eq (h : Lexed ps rest) :
    tokensOf (texts ps ++ rest) = tokensAt ⟨1, 0⟩ ps := by
  have hlength := length_le_texts ps
  obtain ⟨pos', heq⟩ := @tokensWithin_lexerAt ⟨1, 0⟩ _ _ h
    ((texts ps ++ rest).length + 1) (by rw [List.length_append]; omega)
  rw [tokensOf, create_eq h, heq]

theorem ended_tokensAt (pos : Position) (ps : List Piece) : Ended (tokensAt pos ps) := by
  induction ps generalizing pos with
  | nil => exact .last rfl rfl
  | cons p ps ih =>
    rw [tokensAt]
    split
    case h_1 type content htoken => exact .cons (tokenType_ne_eof htoken) (ih _)
    case h_2 => exact ih _

theorem length_tokensAt_le (pos : Position) (ps : List Piece) :
    (tokensAt pos ps).length ≤ ps.length + 1 := by
  induction ps generalizing pos with
  | nil => exact Nat.le_refl _
  | cons p ps ih =>
    rw [tokensAt]
    split
    · exact Nat.succ_le_succ (ih _)
    · exact (ih _).trans (Nat.le_succ _)

/-- The lexer is in front of some pieces, and the list holds their tokens. -/
def ReadsTokens (rest : List Char) (l : Lexer) (ts : List Token) : Prop :=
  ∃ pos ps, Lexed ps rest ∧ l = lexerAt pos ps rest ∧ ts = tokensAt pos ps

theorem reads_sameTokens (rest : List Char) : SameTokens (ReadsTokens rest) where
  next := by
    rintro _ _ ⟨pos, ps, _, rfl, rfl⟩
    rw [tokensAt_eq]
    split <;> rfl
  behind := by
    rintro _ _ ⟨pos, ps, h, rfl, rfl⟩
    refine ⟨(nextOf pos ps).2.1, (nextOf pos ps).2.2, h.behind_next pos, ?_, ?_⟩
    · exact congrArg Prod.snd (get_lexerAt h)
    · rw [tokensAt_eq]
      by_cases hend : (nextOf pos ps).1.type = .eof
      · obtain ⟨hnil, htoken⟩ := nextOf_eof hend
        rw [if_pos hend, hnil, ← htoken]
        rfl
      · rw [if_neg hend, advance_cons _ (ended_tokensAt _ _).ne_nil]

/-- A text is parsed as its tokens are, by as many turns as it has characters. -/
theorem exists_parseConfig (h : Lexed ps rest) :
    ∃ r r', parseConfig (texts ps ++ rest) = some r ∧
      Parses false globalGroup (tokensAt ⟨1, 0⟩ ps) r' ∧ SameResult (ReadsTokens rest) r r' := by
  obtain ⟨r', hr'⟩ := exists_parses (ended_tokensAt ⟨1, 0⟩ ps) false globalGroup
  have hfuel : (tokensAt ⟨1, 0⟩ ps).length ≤ (texts ps ++ rest).length + 1 := by
    have hlength := length_tokensAt_le ⟨1, 0⟩ ps
    have htexts := length_le_texts ps
    rw [List.length_append]
    omega
  have hsame := parseGroup_sameResult (reads_sameTokens rest) ⟨⟨1, 0⟩, ps, h, rfl, rfl⟩
    ((texts ps ++ rest).length + 1) false globalGroup
  rw [hr'.parseGroup_eq (ended_tokensAt _ _) hfuel, ← create_eq h] at hsame
  rw [parseConfig]
  generalize parseGroup _ false globalGroup (Lexer.create (texts ps ++ rest)) = r at hsame ⊢
  cases hsame with
  | @some r _ hsame => exact ⟨r, r', rfl, hr', hsame⟩

/-- The parser comes to a result for every text. -/
theorem parseConfig_isSome (text : List Char) : (parseConfig text).isSome := by
  obtain ⟨ps, rest, h, rfl⟩ := exists_lexed text
  obtain ⟨r, _, hr, _⟩ := exists_parseConfig h
  rw [hr]
  rfl

/-- The file is read up to the end of its tokens. -/
theorem Parses.eq_singleton {cg g : ConfigGroup} {ts us : List Token} {needClose : Bool}
    (h : Parses needClose cg ts (.ok (g, us))) (hclose : needClose = false) :
    ∃ t : Token, t.type = .eof ∧ us = [t] := by
  generalize hr : Except.ok (g, us) = r at h
  induction h generalizing g us with
  | throws | plainThrows | bodyThrows | openingThrows => cases hr
  | closing closes =>
    cases hr
    cases closes with
    | brace => cases hclose
    | eof type => exact ⟨_, type, rfl⟩
  | option _ _ _ _ ih | plain _ _ _ _ ih => exact ih hclose hr
  | opening _ _ _ _ _ _ ih => exact ih hclose hr

theorem parseConfig_ok_iff {g : ConfigGroup} (h : Lexed ps rest) :
    (∃ l, parseConfig (texts ps ++ rest) = some (.ok (g, l))) ↔
      ∃ ts, Parses false globalGroup (tokensAt ⟨1, 0⟩ ps) (.ok (g, ts)) := by
  obtain ⟨r, r', hr, hr', hsame⟩ := exists_parseConfig h
  constructor
  · rintro ⟨l, hl⟩
    cases hr.symm.trans hl
    cases hsame with
    | @ok _ _ ts _ => exact ⟨ts, hr'⟩
  · rintro ⟨ts, hts⟩
    cases hr'.unique (ended_tokensAt _ _) hts
    cases hsame with
    | @ok _ l _ _ => exact ⟨l, hr⟩

theorem parseConfig_error_iff {e : ParseException} (h : Lexed ps rest) :
    parseConfig (texts ps ++ rest) = some (.error e) ↔
      Parses false globalGroup (tokensAt ⟨1, 0⟩ ps) (.error e) := by
  obtain ⟨r, r', hr, hr', hsame⟩ := exists_parseConfig h
  constructor
  · intro he
    cases hr.symm.trans he
    cases hsame
    exact hr'
  · intro he
    cases hr'.unique (ended_tokensAt _ _) he
    cases hsame
    exact hr

/-- The lexer of an accepted text stands in front of what it takes for the end. -/
theorem unread_of_parseConfig {g : ConfigGroup} {l : Lexer} (h : Lexed ps rest)
    (hparse : parseConfig (texts ps ++ rest) = some (.ok (g, l))) : l.unread = rest := by
  obtain ⟨r, r', hr, hr', hsame⟩ := exists_parseConfig h
  cases hr.symm.trans hparse
  cases hsame with
  | @ok _ _ ts hreads =>
    obtain ⟨t, htype, rfl⟩ := hr'.eq_singleton rfl
    obtain ⟨pos, qs, hqs, rfl, hts⟩ := hreads
    refine unread_lexerAt ?_
    rw [tokensAt_eq] at hts
    by_cases hend : (nextOf pos qs).1.type = .eof
    · exact hend
    · rw [if_neg hend, List.cons.injEq] at hts
      exact absurd hts.2.symm (ended_tokensAt _ _).ne_nil

end Texts

end Ctguard
