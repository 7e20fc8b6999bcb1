import Ctguard.ConfigEntries

/-!
# The roles of the tokens

What a token is in a configuration is found by walking over the tokens: whether a value is
expected, on which line more values may follow, and whether a name or a keyword has just been read.
The walk gives the tokens of valid entries the roles in which the entries hold them, and entries
whose tokens have their roles are valid.
-/

namespace Ctguard

inductive TokenRole where
  | word
  | equals
  | value
  | opening
  | closing
  deriving DecidableEq, Repr

/-- What the walk knows in front of a token. -/
inductive TokenPlace where
  | free
  | named
  | assigned
  | line (number : UInt32)
  deriving DecidableEq, Repr

namespace TokenPlace

/-- The token is one more value, or the first one. -/
def takes (s : TokenPlace) (t : Token) : Bool :=
  t.isValue && (s = .assigned || s = .line t.position.lineNumber)

def role (s : TokenPlace) (t : Token) : TokenRole :=
  if s.takes t then .value
  else if s = .named ∧ t.isChar '{' = true then .opening
  else if t.isName then .word
  else if t.content = "=" then .equals
  else .closing

/-- The place behind a token that has a role. -/
def behind (t : Token) : TokenRole → TokenPlace
  | .word => .named
  | .equals => .assigned
  | .value => .line t.position.lineNumber
  | .opening => .free
  | .closing => .free

def next (s : TokenPlace) (t : Token) : TokenPlace := behind t (s.role t)

/-- The place behind some tokens. -/
def walk (s : TokenPlace) : List Token → TokenPlace
  | [] => s
  | t :: ts => (s.next t).walk ts

/-- The tokens, each with its role. -/
def mark (s : TokenPlace) : List Token → List (Token × TokenRole)
  | [] => []
  | t :: ts => (t, s.role t) :: (s.next t).mark ts

/-- The token is neither a value nor opens a group. -/
def Ready (s : TokenPlace) (t : Token) : Prop :=
  s.takes t = false ∧ ¬ (s = .named ∧ t.isChar '{' = true)

variable {s : TokenPlace} {t : Token}

theorem next_of_role {r : TokenRole} (h : s.role t = r) : s.next t = behind t r := by
  rw [next, h]

theorem walk_append (s : TokenPlace) (ts us : List Token) :
    s.walk (ts ++ us) = (s.walk ts).walk us := by
  induction ts generalizing s with
  | nil => rfl
  | cons t ts ih => exact ih (s.next t)

theorem mark_append (s : TokenPlace) (ts us : List Token) :
    s.mark (ts ++ us) = s.mark ts ++ (s.walk ts).mark us := by
  induction ts generalizing s with
  | nil => rfl
  | cons t ts ih => exact congrArg ((t, s.role t) :: ·) (ih (s.next t))

theorem map_fst_mark (s : TokenPlace) (ts : List Token) : (s.mark ts).map Prod.fst = ts := by
  induction ts generalizing s with
  | nil => rfl
  | cons t ts ih => exact congrArg (t :: ·) (ih (s.next t))

theorem role_word (h : s.Ready t) (ht : t.isName = true) :
    s.role t = .word ∧ s.next t = .named := by
  have hrole : s.role t = .word := by
    rw [role, if_neg (by simp [h.1]), if_neg h.2, if_pos ht]
  exact ⟨hrole, next_of_role hrole⟩

theorem role_closing (h : s.Ready t) (ht : t.isName = false) (hequals : t.content ≠ "=") :
    s.role t = .closing ∧ s.next t = .free := by
  have hrole : s.role t = .closing := by
    rw [role, if_neg (by simp [h.1]), if_neg h.2, if_neg (by simp [ht]), if_neg hequals]
  exact ⟨hrole, next_of_role hrole⟩

theorem role_equals (ht : t.isName = false) (hequals : t.content = "=") :
    named.role t = .equals ∧ named.next t = .assigned := by
  have htakes : named.takes t = false := by simp [takes]
  have hbrace : t.isChar '{' = false := by simp [Token.isChar, hequals]
  have hrole : named.role t = .equals := by
    rw [role, if_neg (by simp [htakes]), if_neg (by simp [hbrace]), if_neg (by simp [ht]),
      if_pos hequals]
  exact ⟨hrole, next_of_role hrole⟩

theorem role_opening (ht : t.isChar '{' = true) :
    named.role t = .opening ∧ named.next t = .free := by
  have htakes : named.takes t = false := by simp [takes]
  have hrole : named.role t = .opening := by
    rw [role, if_neg (by simp [htakes]), if_pos ⟨rfl, ht⟩]
  exact ⟨hrole, next_of_role hrole⟩

theorem role_value (h : s.takes t = true) :
    s.role t = .value ∧ s.next t = .line t.position.lineNumber := by
  have hrole : s.role t = .value := by rw [role, if_pos h]
  exact ⟨hrole, next_of_role hrole⟩

/-- A token that is a word or ends a group is neither a value nor opens a group. -/
theorem ready_of_role (h : s.role t = .word ∨ s.role t = .closing) : s.Ready t := by
  refine ⟨?_, fun hopens => ?_⟩
  · by_contra htakes
    rw [Bool.not_eq_false] at htakes
    rw [(role_value htakes).1] at h
    simp at h
  · obtain ⟨rfl, hbrace⟩ := hopens
    rw [(role_opening hbrace).1] at h
    simp at h

end TokenPlace

/-- The token is of a kind that the parser takes in the role. -/
def Token.Fits (t : Token) : TokenRole → Prop
  | .word => t.isName = true
  | .equals => t.isName = false ∧ t.content = "="
  | .value => t.isValue = true
  | .opening => t.isChar '{' = true
  | .closing => t.isName = false ∧ t.isChar '}' = true

namespace Entries

/-- The tokens, each in the role in which the entries hold it. -/
def marked : Entries → List (Token × TokenRole)
  | nil => []
  | option name equals value more rest =>
    (name, .word) :: (equals, .equals) :: (value, .value) :: (more.map (·, .value) ++ rest.marked)
  | plain name keyword rest => (name, .word) :: (keyword, .word) :: rest.marked
  | braced name keyword opening body closing rest =>
    (name, .word) :: (keyword.toList.map (·, .word) ++
      (opening, .opening) :: (body.marked ++ (closing, .closing) :: rest.marked))

variable {es : Entries} {after : Token} {s : TokenPlace}

theorem map_fst_marked (es : Entries) : es.marked.map Prod.fst = es.tokens := by
  induction es with
  | nil => rfl
  | option name equals value more rest ih =>
    simp [marked, tokens, ih, Function.comp_def]
  | plain name keyword rest ih => simp [marked, tokens, ih]
  | braced name keyword opening body closing rest ihBody ihRest =>
    simp [marked, tokens, ihBody, ihRest, Function.comp_def]

theorem Valid.fits (h : es.Valid after) : ∀ m ∈ es.marked, m.1.Fits m.2 := by
  induction es generalizing after with
  | nil => exact fun m hm => absurd hm List.not_mem_nil
  | option name equals value more rest ih =>
    obtain ⟨hname, hequals, hvalue, hmore, _, hrest⟩ := h
    simp only [marked, List.forall_mem_cons, List.forall_mem_append, List.forall_mem_map]
    exact ⟨hname, hequals, hvalue, fun t ht => (hmore t ht).1, ih hrest⟩
  | plain name keyword rest ih =>
    obtain ⟨hname, hkeyword, _, hrest⟩ := h
    simp only [marked, List.forall_mem_cons]
    exact ⟨hname, hkeyword.1, ih hrest⟩
  | braced name keyword opening body closing rest ihBody ihRest =>
    obtain ⟨hname, hkeyword, hopening, hbody, hclosing, hrest⟩ := h
    simp only [marked, List.forall_mem_cons, List.forall_mem_append, List.forall_mem_map,
      Option.mem_toList]
    exact ⟨hname, fun k hk => (hkeyword k hk).1, hopening, ihBody hbody, hclosing, ihRest hrest⟩

/-- The walk over the values behind the first one. -/
theorem mark_values {n : UInt32} {more : List Token}
    (hmore : ∀ t ∈ more, t.isValue = true ∧ t.position.lineNumber = n) (ts : List Token) :
    (TokenPlace.line n).mark (more ++ ts) = more.map (·, .value) ++ (TokenPlace.line n).mark ts ∧
      (TokenPlace.line n).walk (more ++ ts) = (TokenPlace.line n).walk ts := by
  induction more with
  | nil => exact ⟨rfl, rfl⟩
  | cons t more ih =>
    obtain ⟨⟨hvalue, hline⟩, hmore⟩ := List.forall_mem_cons.mp hmore
    have htakes : (TokenPlace.line n).takes t = true := by
      simp [TokenPlace.takes, hvalue, hline]
    obtain ⟨hrole, hnext⟩ := TokenPlace.role_value htakes
    rw [hline] at hnext
    obtain ⟨hmark, hwalk⟩ := ih hmore
    rw [List.cons_append, TokenPlace.mark, TokenPlace.walk, hrole, hnext, hmark, hwalk]
    exact ⟨rfl, rfl⟩

/-- Behind a name, a keyword that is no brace is a name, too. -/
theorem ready_named_of_not_brace {t : Token} (h : t.isChar '{' = false) :
    TokenPlace.named.Ready t := by
  refine ⟨by simp [TokenPlace.takes], fun hopens => ?_⟩
  rw [h] at hopens
  exact Bool.false_ne_true hopens.2

theorem ready_free (t : Token) : TokenPlace.free.Ready t := by
  simp [TokenPlace.Ready, TokenPlace.takes]

theorem not_equals_of_isChar {t : Token} {c : Char} (h : t.isChar c = true) (hc : c ≠ '=') :
    t.content ≠ "=" := by
  intro hequals
  simp [Token.isChar, hequals, hc.symm] at h

/-- The walk gives the tokens of valid entries their roles. -/
theorem Valid.mark_eq (h : es.Valid after) (hs : s.Ready (es.first after)) :
    s.mark es.tokens = es.marked ∧ (s.walk es.tokens).Ready after := by
  induction es generalizing after s with
  | nil => exact ⟨rfl, hs⟩
  | option name equals value more rest ih =>
    obtain ⟨hname, ⟨hnotName, hequals⟩, hvalue, hmore, hstop, hrest⟩ := h
    obtain ⟨hrole, hnext⟩ := TokenPlace.role_word (t := name) hs hname
    obtain ⟨hrole', hnext'⟩ := TokenPlace.role_equals hnotName hequals
    have htakes : TokenPlace.assigned.takes value = true := by simp [TokenPlace.takes, hvalue]
    obtain ⟨hrole'', hnext''⟩ := TokenPlace.role_value htakes
    obtain ⟨hmark, hwalk⟩ := mark_values hmore rest.tokens
    have hready : (TokenPlace.line value.position.lineNumber).Ready (rest.first after) := by
      simp only [TokenPlace.Ready, TokenPlace.takes]
      grind
    obtain ⟨hmarkRest, hafter⟩ := ih hrest hready
    simp only [tokens, marked, TokenPlace.mark, TokenPlace.walk, first] at hs ⊢
    rw [hrole, hnext, hrole', hnext', hrole'', hnext'', hmark, hwalk, hmarkRest]
    exact ⟨rfl, hafter⟩
  | plain name keyword rest ih =>
    obtain ⟨hname, ⟨hkeyword, hno⟩, hstop, hrest⟩ := h
    obtain ⟨hrole, hnext⟩ := TokenPlace.role_word (t := name) hs hname
    obtain ⟨hrole', hnext'⟩ := TokenPlace.role_word (ready_named_of_not_brace hno) hkeyword
    obtain ⟨hmarkRest, hafter⟩ := ih hrest (ready_named_of_not_brace hstop)
    simp only [tokens, marked, TokenPlace.mark, TokenPlace.walk, first] at hs ⊢
    rw [hrole, hnext, hrole', hnext', hmarkRest]
    exact ⟨rfl, hafter⟩
  | braced name keyword opening body closing rest ihBody ihRest =>
    obtain ⟨hname, hkeyword, hopening, hbody, ⟨hnotName, hclosing⟩, hrest⟩ := h
    obtain ⟨hrole, hnext⟩ := TokenPlace.role_word (t := name) hs hname
    obtain ⟨hopenRole, hopenNext⟩ := TokenPlace.role_opening hopening
    obtain ⟨hmarkBody, hreadyClosing⟩ := ihBody hbody (ready_free _)
    obtain ⟨hcloseRole, hcloseNext⟩ := TokenPlace.role_closing hreadyClosing hnotName
      (not_equals_of_isChar hclosing (by decide))
    obtain ⟨hmarkRest, hafter⟩ := ihRest hrest (ready_free _)
    have hkeywords : TokenPlace.named.mark keyword.toList = keyword.toList.map (·, .word) ∧
        TokenPlace.named.walk keyword.toList = .named := by
      cases keyword with
      | none => exact ⟨rfl, rfl⟩
      | some k =>
        obtain ⟨hk, hno⟩ := hkeyword k rfl
        obtain ⟨hkRole, hkNext⟩ := TokenPlace.role_word (ready_named_of_not_brace hno) hk
        simp [TokenPlace.mark, TokenPlace.walk, hkRole, hkNext]
    simp only [tokens, marked, TokenPlace.mark, TokenPlace.walk, TokenPlace.mark_append,
      TokenPlace.walk_append, first] at hs ⊢
    rw [hrole, hnext, hkeywords.1, hkeywords.2, hopenRole, hopenNext, hmarkBody, hcloseRole,
      hcloseNext, hmarkRest]
    exact ⟨rfl, hafter⟩

theorem length_marked (es : Entries) : es.marked.length = es.tokens.length := by
  rw [← List.length_map Prod.fst, map_fst_marked]

theorem length_mark (s : TokenPlace) (ts : List Token) : (s.mark ts).length = ts.length := by
  rw [← List.length_map Prod.fst, TokenPlace.map_fst_mark]

/-- A walk over two lists of tokens is taken apart. -/
theorem mark_append_inj {ts us : List Token} {ms ns : List (Token × TokenRole)}
    (hlength : ts.length = ms.length) (h : s.mark (ts ++ us) = ms ++ ns) :
    s.mark ts = ms ∧ (s.walk ts).mark us = ns := by
  rw [TokenPlace.mark_append] at h
  exact List.append_inj h ((length_mark s ts).trans hlength)

theorem takes_of_role {t : Token} (h : s.role t = .value) : s.takes t = true := by
  by_contra htakes
  rw [TokenPlace.role, if_neg htakes] at h
  grind

theorem values_of_mark {n : UInt32} {more : List Token}
    (h : (TokenPlace.line n).mark more = more.map (·, .value)) :
    (∀ t ∈ more, t.isValue = true ∧ t.position.lineNumber = n) ∧
      (TokenPlace.line n).walk more = .line n := by
  induction more with
  | nil => exact ⟨fun t ht => absurd ht List.not_mem_nil, rfl⟩
  | cons t more ih =>
    simp only [TokenPlace.mark, List.map_cons, List.cons.injEq, Prod.mk.injEq, true_and] at h
    have htakes := takes_of_role h.1
    have hnext := (TokenPlace.role_value htakes).2
    simp only [TokenPlace.takes, Bool.and_eq_true, Bool.or_eq_true, decide_eq_true_eq,
      TokenPlace.line.injEq, reduceCtorEq, false_or] at htakes
    rw [← htakes.2] at hnext
    rw [hnext] at h
    obtain ⟨hmore, hwalk⟩ := ih h.2
    exact ⟨List.forall_mem_cons.mpr ⟨⟨htakes.1, htakes.2.symm⟩, hmore⟩,
      by rw [TokenPlace.walk, hnext, hwalk]⟩

/-- What is first is ready where its role is that of a name. -/
theorem ready_first (hmark : s.mark es.tokens = es.marked)
    (hafter : (s.walk es.tokens).Ready after) : s.Ready (es.first after) := by
  cases es with
  | nil => exact hafter
  | option | plain | braced =>
    refine TokenPlace.ready_of_role (.inl ?_)
    simp only [tokens, marked, TokenPlace.mark, List.cons.injEq, Prod.mk.injEq] at hmark
    exact hmark.1.2

theorem not_brace_of_ready {t : Token} (h : TokenPlace.named.Ready t) : t.isChar '{' = false := by
  by_contra hbrace
  exact h.2 ⟨rfl, by simpa using hbrace⟩

/-- Entries whose tokens have their roles are valid. -/
theorem valid_of_mark (hfits : ∀ m ∈ es.marked, m.1.Fits m.2) (hmark : s.mark es.tokens = es.marked)
    (hafter : (s.walk es.tokens).Ready after) : es.Valid after := by
  induction es generalizing after s with
  | nil => trivial
  | option name equals value more rest ih =>
    simp only [marked, List.forall_mem_cons, List.forall_mem_append, List.forall_mem_map] at hfits
    obtain ⟨hname, hequals, hvalue, hmore, hrest⟩ := hfits
    simp only [tokens, marked, TokenPlace.mark, List.cons.injEq, Prod.mk.injEq, true_and] at hmark
    obtain ⟨hrole, hrole', hrole'', hmark⟩ := hmark
    have hnext := TokenPlace.next_of_role hrole
    have hnext' := TokenPlace.next_of_role hrole'
    have hnext'' := TokenPlace.next_of_role hrole''
    simp only [tokens, TokenPlace.walk, TokenPlace.walk_append] at hafter
    rw [hnext'', TokenPlace.behind] at hmark hafter
    obtain ⟨hvalues, hmark⟩ := mark_append_inj (List.length_map _).symm hmark
    obtain ⟨hmore', hwalk⟩ := values_of_mark hvalues
    rw [hwalk] at hmark hafter
    obtain ⟨htakes, _⟩ := ready_first hmark hafter
    refine ⟨hname, hequals, hvalue, hmore', fun hstop => ?_, ih hrest hmark hafter⟩
    simp [TokenPlace.takes, hstop] at htakes
  | plain name keyword rest ih =>
    simp only [marked, List.forall_mem_cons] at hfits
    obtain ⟨hname, hkeyword, hrest⟩ := hfits
    simp only [tokens, marked, TokenPlace.mark, List.cons.injEq, Prod.mk.injEq, true_and] at hmark
    obtain ⟨hrole, hrole', hmark⟩ := hmark
    have hnext := (TokenPlace.role_word (TokenPlace.ready_of_role (.inl hrole)) hname).2
    rw [hnext] at hrole' hmark
    have hready' := TokenPlace.ready_of_role (.inl hrole')
    have hnext' := (TokenPlace.role_word hready' hkeyword).2
    rw [hnext'] at hmark
    simp only [tokens, TokenPlace.walk, hnext, hnext'] at hafter
    exact ⟨hname, ⟨hkeyword, not_brace_of_ready hready'⟩,
      not_brace_of_ready (ready_first hmark hafter), ih hrest hmark hafter⟩
  | braced name keyword opening body closing rest ihBody ihRest =>
    simp only [marked, List.forall_mem_cons, List.forall_mem_append, List.forall_mem_map,
      Option.mem_toList] at hfits
    obtain ⟨hname, hkeyword, hopening, hbody, hclosing, hrest⟩ := hfits
    simp only [tokens, marked, TokenPlace.mark, List.cons.injEq, Prod.mk.injEq, true_and] at hmark
    obtain ⟨hrole, hmark⟩ := hmark
    rw [TokenPlace.next_of_role hrole, TokenPlace.behind] at hmark
    simp only [tokens, TokenPlace.walk, TokenPlace.walk_append,
      TokenPlace.next_of_role hrole, TokenPlace.behind] at hafter
    obtain ⟨hkeywords, hmark⟩ := mark_append_inj (List.length_map _).symm hmark
    simp only [TokenPlace.mark, List.cons.injEq, Prod.mk.injEq, true_and] at hmark
    obtain ⟨hopenRole, hmark⟩ := hmark
    rw [TokenPlace.next_of_role hopenRole, TokenPlace.behind] at hmark hafter
    obtain ⟨hmarkBody, hmark⟩ := mark_append_inj (length_marked body).symm hmark
    simp only [TokenPlace.mark, List.cons.injEq, Prod.mk.injEq, true_and] at hmark
    obtain ⟨hcloseRole, hmarkRest⟩ := hmark
    rw [TokenPlace.next_of_role hcloseRole, TokenPlace.behind] at hmarkRest hafter
    refine ⟨hname, fun k hk => ⟨hkeyword k hk, ?_⟩, hopening,
      ihBody hbody hmarkBody (TokenPlace.ready_of_role (.inr hcloseRole)), hclosing,
      ihRest hrest hmarkRest hafter⟩
    cases hk
    simp only [Option.toList_some, TokenPlace.mark, List.map_cons, List.map_nil, List.cons.injEq,
      Prod.mk.injEq, true_and, and_true] at hkeywords
    exact not_brace_of_ready (TokenPlace.ready_of_role (.inl hkeywords))

theorem eq_of_map_eq {α β : Type} {xs ys : List (α × β)} (hfst : xs.map Prod.fst = ys.map Prod.fst)
    (hsnd : xs.map Prod.snd = ys.map Prod.snd) : xs = ys := by
  rw [← List.zip_unzip xs, ← List.zip_unzip ys, List.unzip_eq_map, List.unzip_eq_map, hfst, hsnd]

theorem role_end {t : Token} (ht : t.type = .eof ∧ t.content = "") (hs : s.Ready t) :
    s.role t = .closing := by
  refine (TokenPlace.role_closing hs ?_ ?_).1
  · simp [Token.isName, ht.1]
  · rw [ht.2]
    decide

/-- In front of the end of the input, entries are valid if the walk gives their tokens the roles in
which they hold them. -/
theorem valid_iff (hafter : after.type = .eof ∧ after.content = "") :
    es.Valid after ↔ (∀ m ∈ es.marked, m.1.Fits m.2) ∧
      (TokenPlace.free.mark (es.tokens ++ [after])).map Prod.snd =
        es.marked.map Prod.snd ++ [.closing] := by
  rw [TokenPlace.mark_append, List.map_append]
  constructor
  · intro h
    obtain ⟨hmark, hready⟩ := h.mark_eq (ready_free _)
    rw [hmark, TokenPlace.mark, role_end hafter hready]
    exact ⟨h.fits, rfl⟩
  · rintro ⟨hfits, hroles⟩
    obtain ⟨hroles, hclosing⟩ := List.append_inj' hroles rfl
    have hmark : TokenPlace.free.mark es.tokens = es.marked :=
      eq_of_map_eq ((TokenPlace.map_fst_mark _ _).trans (map_fst_marked es).symm) hroles
    refine valid_of_mark hfits hmark (TokenPlace.ready_of_role (.inr ?_))
    simpa [TokenPlace.mark] using hclosing

end Entries

end Ctguard
