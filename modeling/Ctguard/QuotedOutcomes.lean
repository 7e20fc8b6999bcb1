import Ctguard.QuotedDuplicates
import Ctguard.RoleCounts

/-!
# Contents that do not stay a text

If what is read changes only in one content, then this content is taken for no punctuation: tokens
are told apart by their positions, and each group that is opened needs a brace that ends it.
-/

namespace Ctguard

theorem word_before_equals {previous : TokenRole} {front back : List (Token × TokenRole)}
    {m m' : Token × TokenRole} (h : EqualsBehindWords previous (front ++ m :: m' :: back))
    (hm' : m'.2 = .equals) : m.2 = .word := by
  induction front generalizing previous with
  | nil => exact h.2.1 hm'
  | cons _ front ih => exact ih h.2

section Places

variable {ts us vs us' vs' : List Token} {t t' : Token}

def RisingTokens (ts : List Token) : Prop :=
  ts.Pairwise fun t u => t.position.less u.position = true

theorem not_less_self (p : Position) : p.less p ≠ true := by
  rw [ne_eq, Position.less_iff]
  exact lt_irrefl _

theorem RisingTokens.ne_behind (h : RisingTokens (us ++ t :: (vs ++ t' :: vs'))) :
    t.position ≠ t'.position := by
  intro heq
  have hless := (List.pairwise_cons.mp (List.pairwise_append.mp h).2.1).1 t'
    (List.mem_append_right _ List.mem_cons_self)
  rw [heq] at hless
  exact not_less_self _ hless

/-- A position is that of one token only. -/
theorem RisingTokens.split_unique (h : RisingTokens ts) (hsplit : ts = us ++ t :: vs)
    (hsplit' : ts = us' ++ t' :: vs') (hposition : t.position = t'.position) :
    us = us' ∧ t = t' ∧ vs = vs' := by
  have heq : us ++ t :: vs = us' ++ t' :: vs' := hsplit.symm.trans hsplit'
  rcases List.append_eq_append_iff.mp heq with ⟨as, rfl, has⟩ | ⟨as, rfl, has⟩
  · cases as with
    | nil =>
      rw [List.nil_append, List.cons.injEq] at has
      exact ⟨(List.append_nil _).symm, has⟩
    | cons a as =>
      rw [List.cons_append, List.cons.injEq] at has
      rw [hsplit, has.2] at h
      exact absurd hposition h.ne_behind
  · cases as with
    | nil =>
      rw [List.nil_append, List.cons.injEq] at has
      exact ⟨List.append_nil _, has.1.symm, has.2.symm⟩
    | cons a as =>
      rw [List.cons_append, List.cons.injEq] at has
      rw [hsplit', has.2] at h
      exact absurd hposition.symm h.ne_behind

theorem rising_textTokens {ps : List Piece} {rest : List Char} (h : Lexed ps rest)
    (hsize : (texts ps ++ rest).length < 2 ^ 32) : RisingTokens (textTokens ps) := by
  have hrising := tokensOf_rising hsize
  rwa [tokensOf_eq h, tokensAt_eq_textTokens, Rising, List.dropLast_concat] at hrising

end Places

section Punctuation

variable {ps : List Piece} {es : Entries} {rest : List Char} {ts us : List Token} {t : Token}

theorem exists_pieceTokens {p : Piece} {pos : Position} {token : TokenType × String} (h : p ∈ ps)
    (htoken : p.token? = some token) : ∃ t, (p, t) ∈ pieceTokens pos ps := by
  induction ps generalizing pos with
  | nil => exact absurd h List.not_mem_nil
  | cons r ps ih =>
    rw [pieceTokens]
    rcases List.mem_cons.mp h with rfl | h
    · rw [htoken]
      exact ⟨_, List.mem_cons_self⟩
    · obtain ⟨t, ht⟩ := @ih (pos.pastAll r.text) h
      cases r.token? with
      | none => exact ⟨t, ht⟩
      | some => exact ⟨t, List.mem_cons_of_mem _ ht⟩

/-- Beside a piece stands the role that the walk gives its token. -/
theorem mem_zip_of_split (hmark : TokenPlace.free.mark (textTokens ps) = es.marked)
    {front back : List (Piece × Token)} {m : Piece × Token}
    (hsplit : pieceTokens ⟨1, 0⟩ ps = front ++ m :: back) :
    (m, (TokenPlace.free.walk (front.map Prod.snd)).role m.2) ∈
      (pieceTokens ⟨1, 0⟩ ps).zip (es.marked.map Prod.snd) := by
  have hlength : front.length =
      ((TokenPlace.free.mark (front.map Prod.snd)).map Prod.snd).length := by
    rw [List.length_map, Entries.length_mark, List.length_map]
  rw [← hmark, textTokens, hsplit, List.map_append, List.map_cons, TokenPlace.mark_append,
    List.map_append, List.zip_append hlength]
  exact List.mem_append_right _ List.mem_cons_self

/-- The end of the input is the last of the tokens. -/
theorem exists_textTokens_split (h : tokensAt ⟨1, 0⟩ ps = ts ++ t :: us) (ht : t.type ≠ .eof) :
    ∃ vs, textTokens ps = ts ++ t :: vs := by
  rw [tokensAt_eq_textTokens] at h
  rcases List.eq_nil_or_concat us with rfl | ⟨vs, x, rfl⟩
  · obtain ⟨-, heof⟩ := List.append_inj' h rfl
    rw [List.cons.injEq] at heof
    rw [← heof.1] at ht
    exact absurd rfl ht
  · rw [List.concat_eq_append, ← List.cons_append, ← List.append_assoc] at h
    exact ⟨vs, (List.append_inj' h rfl).1⟩

/-- What stands between the words and the values is of no type of its own. -/
theorem PunctuationUnquoted.type_eq (h : PunctuationUnquoted ps es)
    (hmark : TokenPlace.free.mark (textTokens ps) = es.marked) {vs : List Token}
    (hsplit : textTokens ps = ts ++ t :: vs)
    (hrole : (TokenPlace.free.walk ts).role t = .opening) : t.type = .unknown := by
  obtain ⟨front, behind, hpieces, rfl, hbehind⟩ := List.map_eq_append_iff.mp hsplit
  obtain ⟨m, back, rfl, rfl, -⟩ := List.map_eq_cons_iff.mp hbehind
  have hzip := mem_zip_of_split hmark hpieces
  obtain ⟨c, hc⟩ := h _ hzip (.inr (.inl hrole))
  obtain ⟨-, htoken⟩ := token?_of_mem (List.of_mem_zip hzip).1
  rw [hc] at htoken
  exact (Prod.mk.inj (Option.some.inj htoken)).1.symm

/-- Where no string opens a group, none that is a brace stands behind a name. -/
theorem PunctuationUnquoted.braces (h : PunctuationUnquoted ps es)
    (hmark : TokenPlace.free.mark (textTokens ps) = es.marked)
    (hsplit : tokensAt ⟨1, 0⟩ ps = ts ++ t :: us) (hstring : t.type = .string)
    (hnamed : TokenPlace.free.walk ts = .named) : t.isChar '{' = false := by
  by_contra hbrace
  rw [Bool.not_eq_false] at hbrace
  obtain ⟨vs, htext⟩ := exists_textTokens_split hsplit (by simp [hstring])
  have htype := h.type_eq hmark htext (by rw [hnamed, (TokenPlace.role_opening hbrace).1])
  rw [hstring] at htype
  cases htype

theorem PunctuationUnquoted.not_name (h : PunctuationUnquoted ps es)
    (hmark : TokenPlace.free.mark (textTokens ps) = es.marked) {m : Token × TokenRole}
    (hm : m ∈ es.marked) (hrole : m.2 = .opening) : m.1.isName = false := by
  rw [← hmark] at hm
  obtain ⟨us, vs, hsplit, hwalk⟩ := exists_of_mem_mark hm
  rw [Token.isName, h.type_eq hmark hsplit (hwalk.symm.trans hrole)]
  rfl

/-- A text that is left unclosed is in none of the roles. -/
theorem PunctuationUnquoted.closed (h : PunctuationUnquoted ps es)
    (htokens : textTokens ps = es.tokens)
    (hvalid : es.Valid (eofToken ((⟨1, 0⟩ : Position).pastAll (texts ps)))) :
    ∀ p ∈ ps, ∀ q cs, p ≠ .unclosed q cs := by
  rintro _ hp q cs rfl
  obtain ⟨hfits, hmark, -⟩ := roles_of_valid htokens hvalid
  obtain ⟨t, ht⟩ := @exists_pieceTokens ps _ ⟨1, 0⟩ _ hp rfl
  obtain ⟨front, back, hsplit⟩ := List.append_of_mem ht
  have hzip := mem_zip_of_split hmark hsplit
  have hfits := hfits _ (mem_marked_of_mem_zip htokens hzip)
  have hmark := h _ hzip
  obtain ⟨-, htoken⟩ := token?_of_mem ht
  have htype : t.type = .unknown := (Prod.mk.inj (Option.some.inj htoken)).1.symm
  have hname : t.isName = false := by rw [Token.isName, htype]; rfl
  have hvalue : t.isValue = false := by rw [Token.isValue, hname, htype]; rfl
  generalize (TokenPlace.free.walk (front.map Prod.snd)).role t = r at hfits hmark
  cases r with
  | word => exact absurd (hname.symm.trans hfits) (by decide)
  | value => exact absurd (hvalue.symm.trans hfits) (by decide)
  | equals | opening | closing =>
    obtain ⟨c, hc⟩ := hmark (by simp)
    cases hc

end Punctuation

/-- The entries of an accepted text, and those that hold the tokens of the text with another
content. -/
structure Replaced (pre : List Piece) (q : Char) (c c' : List Char) (post : List Piece)
    (rest : List Char) (es es' : Entries) : Prop where
  lexed : Lexed (withQuoted pre q c post) rest
  tokens : textTokens (withQuoted pre q c post) = es.tokens
  valid : es.Valid (eofToken ((⟨1, 0⟩ : Position).pastAll (texts (withQuoted pre q c post))))
  built : ∃ g, es.build globalGroup = .ok g
  alike : es.Alike (fun _ => Corresponds (quotedToken pre q c) (quotedToken pre q c')) es'
  replaced : es'.tokens = textTokens (withQuoted pre q c' post)
  unquoted : PunctuationUnquoted (withQuoted pre q c post) es

section Blamed

variable {pre post : List Piece} {q : Char} {c c' rest : List Char} {es es' : Entries}
  {e : ParseException} {ms : List (Token × TokenRole)} {t : Token}

/-- The name or the keyword that is refused is the content that has changed. -/
theorem Blames.fault_eq
    (h : Blames (fun u => u = t) (fun _ => False) (fun _ => False) ms e) :
    (t, .word) ∈ ms ∧ ∃ pos,
      e.fault = .keyDefined t.content pos ∨ e.fault = .subgroupDefined t.content pos := by
  cases h with
  | name us n vs pos split position fault changed =>
    rcases changed with rfl | hkey | ⟨front, k, equals, back, rfl, rfl, hcontent⟩
    · exact ⟨by simp [split], pos, .inl fault⟩
    · exact hkey.elim
    · exact ⟨by simp [split], pos, .inl (hcontent ▸ fault)⟩
  | keyword key pos fault changed =>
    rcases changed with hkey | ⟨k, hk, rfl, rfl⟩
    · exact hkey.elim
    · exact ⟨hk, pos, .inr fault⟩

theorem Entries.Alike.imp {R R' : TokenRole → Token → Token → Prop}
    (hR : ∀ r u u', R r u u' → R' r u u') (h : es.Alike R es') : es.Alike R' es' := by
  induction h with
  | nil => exact .nil
  | option name equals value values _ ih =>
    exact .option (hR _ _ _ name) (hR _ _ _ equals) (hR _ _ _ value)
      (values.imp fun _ _ => hR _ _ _) ih
  | plain name keyword _ ih => exact .plain (hR _ _ _ name) (hR _ _ _ keyword) ih
  | braced name keyword opening _ closing _ ihInner ihBehind =>
    refine .braced (hR _ _ _ name) ?_ (hR _ _ _ opening) ihInner (hR _ _ _ closing) ihBehind
    cases keyword with
    | none => exact .none
    | some hk => exact .some (hR _ _ _ hk)

namespace Replaced

variable (h : Replaced pre q c c' post rest es es')

include h

theorem marks : TokenPlace.free.mark (textTokens (withQuoted pre q c post)) = es.marked :=
  (roles_of_valid h.tokens h.valid).2.1

theorem braces {ts us : List Token}
    (hsplit : tokensAt ⟨1, 0⟩ (withQuoted pre q c post) = ts ++ t :: us)
    (hstring : t.type = .string) (hnamed : TokenPlace.free.walk ts = .named) :
    t.isChar '{' = false :=
  h.unquoted.braces h.marks hsplit hstring hnamed

/-- The text is a value, or a name or a keyword. -/
theorem role_quoted :
    (TokenPlace.free.walk (frontTokens pre)).role (quotedToken pre q c) = .value ∧
        (TokenPlace.free.walk (frontTokens pre)).takes (quotedToken pre q c) = true ∨
      (TokenPlace.free.walk (frontTokens pre)).role (quotedToken pre q c) = .word ∧
        (TokenPlace.free.walk (frontTokens pre)).takes (quotedToken pre q c) = false :=
  TokenPlace.role_string rfl (h.braces (tokensAt_withQuoted pre q c post) rfl)

/-- With the new content, the text has the role that it had. -/
theorem marked_eq : ∃ back, es'.marked = TokenPlace.free.mark (frontTokens pre) ++
    (quotedToken pre q c',
      (TokenPlace.free.walk (frontTokens pre)).role (quotedToken pre q c)) :: back := by
  have hroles := h.alike.map_snd
  rw [← h.marks, textTokens_withQuoted, TokenPlace.mark_append, List.map_append] at hroles
  obtain ⟨front, behind, hmarked, hfront, hbehind⟩ := List.map_eq_append_iff.mp hroles
  obtain ⟨⟨u, r⟩, back, rfl, rfl, -⟩ := List.map_eq_cons_iff.mp hbehind
  have htokens := (Entries.map_fst_marked es').trans
    (h.replaced.trans (textTokens_withQuoted pre q c' post))
  have hlength := congrArg List.length hfront
  rw [List.length_map, List.length_map, Entries.length_mark] at hlength
  rw [hmarked, List.map_append, List.map_cons] at htokens
  obtain ⟨hfst, hquoted⟩ := List.append_inj htokens (by rw [List.length_map, hlength])
  rw [List.cons.injEq] at hquoted
  have heq : front = TokenPlace.free.mark (frontTokens pre) :=
    Entries.eq_of_map_eq (hfst.trans (TokenPlace.map_fst_mark _ _).symm) hfront
  refine ⟨back, ?_⟩
  rw [hmarked, heq, ← hquoted.1]

/-- If a name or a keyword of the new text is used twice, the new content is to blame. -/
theorem blames (he : es'.build globalGroup = .error e) (hduplicate : e.fault.IsDuplicate) :
    Blames (fun u => u = quotedToken pre q c') (fun _ => False) (fun _ => False)
      es'.marked e := by
  obtain ⟨g, hbuild⟩ := h.built
  refine blames_of_build (h.alike.imp fun r t t' ht _ => ?_) hbuild ?_ ?_ he hduplicate
  · exact ht.2.imp id And.right
  · exact fun o ho => .inl ⟨o, ho, rfl⟩
  · exact fun sg hsg => .inl ⟨sg, hsg, rfl⟩

/-- The new content is a name, a keyword or a value of the entries. -/
theorem quoted_mem :
    ∃ r, (r = TokenRole.word ∨ r = .value) ∧ (quotedToken pre q c', r) ∈ es'.marked := by
  obtain ⟨back, hmarked⟩ := h.marked_eq
  have hmem := List.mem_append_right (TokenPlace.free.mark (frontTokens pre))
    (@List.mem_cons_self _ (quotedToken pre q c',
      (TokenPlace.free.walk (frontTokens pre)).role (quotedToken pre q c)) back)
  rw [← hmarked] at hmem
  rcases h.role_quoted with ⟨hrole, -⟩ | ⟨hrole, -⟩
  · exact ⟨_, .inr hrole, hmem⟩
  · exact ⟨_, .inl hrole, hmem⟩

end Replaced

end Blamed

section EndOfInput

variable {ps : List Piece} {rest cs : List Char} {t : Token} {g : ConfigGroup}

theorem content_subset_text {p : Piece} {type : TokenType} {content : String}
    (h : p.token? = some (type, content)) : content.toList ⊆ p.text := by
  cases p with
  | blank | comment => cases h
  | quoted q cs =>
    cases h
    rw [String.toList_ofList]
    exact List.subset_cons_of_subset q (List.subset_append_left cs [q])
  | unclosed q cs =>
    cases h
    rw [String.toList_ofList]
    exact List.subset_cons_self q cs
  | word | number | mark =>
    cases h
    rw [String.toList_ofList]
    exact List.Subset.refl _

/-- No token contains the byte that is taken for the end of the input. -/
theorem eofChar_notMem_content (h : Lexed ps rest) (ht : t ∈ tokensAt ⟨1, 0⟩ ps) :
    eofChar ∉ t.content.toList := by
  rw [tokensAt_eq_pieceTokens, List.mem_append, List.mem_singleton] at ht
  rcases ht with ht | rfl
  · obtain ⟨m, hm, rfl⟩ := List.mem_map.mp ht
    obtain ⟨hmem, htoken⟩ := token?_of_mem hm
    exact fun hend => eofChar_notMem_text (h.valid_of_mem _ hmem) (content_subset_text htoken hend)
  · exact List.not_mem_nil

theorem fault_mem_tokens {needClose : Bool} {cg : ConfigGroup} {ts : List Token}
    {e : ParseException} {key : String} {pos : Position}
    (h : Parses needClose cg ts (.error e)) (hended : Ended ts)
    (he : e.fault = .keyDefined key pos ∨ e.fault = .subgroupDefined key pos) :
    ∃ t ∈ ts, key = t.content := by
  rcases he with he | he
  · obtain ⟨us, t, vs, rfl, -, -, hkey, -⟩ := h.keyDefined hended he (Entries.ready_free _)
    exact ⟨t, by simp, hkey⟩
  · obtain ⟨t, ht, hkey, -⟩ := h.subgroupDefined hended he
    exact ⟨t, ht, hkey⟩

/-- A quoted text that contains the byte is left unclosed. -/
theorem exists_unclosed {pre post : List Piece} {q : Char} {c c' : List Char}
    (hlexed : Lexed (withQuoted pre q c post) rest) (hq : q ∉ c') (hend : eofChar ∈ c') :
    ∃ ps rest', Lexed ps rest' ∧
      texts ps ++ rest' = texts (withQuoted pre q c' post) ++ rest := by
  obtain ⟨front, back, rfl, hfront⟩ := List.eq_append_cons_of_mem hend
  have hvalid := hlexed.valid_of_mem (.quoted q c) (by simp [withQuoted])
  have hunclosed : (Piece.unclosed q front).Valid := by
    refine ⟨hvalid.1, fun d hd => ?_⟩
    have hne : d ≠ eofChar := fun heq => hfront (heq ▸ hd)
    have hne' : d ≠ q := fun heq => hq (heq ▸ List.mem_append_left _ hd)
    simp [inQuotes, hne, hne']
  refine ⟨pre ++ [.unclosed q front], eofChar :: (back ++ q :: (texts post ++ rest)), ?_, ?_⟩
  · have hstop : ∀ d ∈ (eofChar :: (back ++ q :: (texts post ++ rest))).head?, d = eofChar := by
      simp
    exact hlexed.replace rfl (.cons hunclosed hstop (.done hstop))
  · simp [withQuoted, texts, Piece.text, Piece.head, Piece.tail]

end EndOfInput

section Outcomes

variable {ps pre post : List Piece} {q : Char} {c c' rest : List Char} {es es' : Entries}
  {g : ConfigGroup} {l : Lexer} {e : ParseException}

/-- What is accepted is built from entries that hold the tokens of the text. -/
theorem exists_entries_of_ok (hlexed : Lexed ps rest)
    (h : parseConfig (texts ps ++ rest) = some (.ok (g, l))) :
    ∃ es : Entries, textTokens ps = es.tokens ∧ (∀ m ∈ es.marked, m.1.Fits m.2) ∧
      TokenPlace.free.mark (textTokens ps) = es.marked ∧ es.build globalGroup = .ok g := by
  obtain ⟨es, hwritten, hbuild⟩ := exists_writtenAs h
  obtain ⟨htokens, hvalid⟩ := (writtenAs_iff hlexed).mp hwritten
  obtain ⟨hfits, hmark, -⟩ := roles_of_valid htokens hvalid
  exact ⟨es, htokens, hfits, hmark, hbuild⟩

theorem mem_tokensAt_of_mem_marked (htokens : textTokens ps = es.tokens) {m : Token × TokenRole}
    (hm : m ∈ es.marked) : m.1 ∈ tokensAt ⟨1, 0⟩ ps := by
  rw [tokensAt_eq_textTokens, htokens, ← Entries.map_fst_marked]
  exact List.mem_append_left _ (List.mem_map_of_mem hm)

/-- The tokens in front of the new content are found by its position. -/
theorem frontTokens_eq (hrising : RisingTokens (textTokens (withQuoted pre q c' post)))
    {us vs : List Token}
    (hsplit : textTokens (withQuoted pre q c' post) = us ++ quotedToken pre q c' :: vs) :
    us = frontTokens pre :=
  (hrising.split_unique hsplit (textTokens_withQuoted pre q c' post) rfl).1

namespace Replaced

variable (h : Replaced pre q c c' post rest es es')

include h

/-- The new content does not end the input. -/
theorem eofChar_notMem (hq : q ∉ c')
    (hgiven : GivenBy (texts (withQuoted pre q c' post) ++ rest) es') : eofChar ∉ c' := by
  intro hend
  obtain ⟨ps, rest', hlexed, htext⟩ := exists_unclosed h.lexed hq hend
  rw [← htext] at hgiven
  have hcontent : eofChar ∈ (quotedToken pre q c').content.toList := by
    rwa [quotedToken, String.toList_ofList]
  rcases hgiven with ⟨g, l, hbuild, hparse⟩ | ⟨e, hbuild, hduplicate, hparse⟩
  · -- The group holds the new content, which is in none of the tokens that have been read.
    obtain ⟨es'', htokens, -, -, hbuild'⟩ := exists_entries_of_ok hlexed hparse
    have hempty : eofChar ∉ "".toList := List.not_mem_nil
    have hbuilt := @allStrings_build (fun s => eofChar ∉ s.toList) es' _ _ hempty hbuild
    have hbuilt' := @allStrings_build (fun s => eofChar ∉ s.toList) es'' _ _ hempty hbuild'
    have hglobal : AllStrings (fun s => eofChar ∉ s.toList) globalGroup := by
      refine ⟨⟨by decide, hempty, ?_⟩, ?_⟩
      · exact fun o ho => absurd ho List.not_mem_nil
      · exact fun node hnode => absurd hnode List.not_mem_nil
    have hall := hbuilt'.mpr ⟨hglobal, fun m hm _ =>
      eofChar_notMem_content hlexed (mem_tokensAt_of_mem_marked htokens hm)⟩
    obtain ⟨r, hr, hmem⟩ := h.quoted_mem
    exact (hbuilt.mp hall).2 _ hmem hr hcontent
  · obtain ⟨-, pos, hfault⟩ := (h.blames hbuild hduplicate).fault_eq
    obtain ⟨t, ht, hkey⟩ := fault_mem_tokens ((parseConfig_error_iff hlexed).mp hparse)
      (ended_tokensAt _ _) hfault
    exact eofChar_notMem_content hlexed ht (hkey ▸ hcontent)

/-- What assigns values does so with the new content. -/
theorem fits_equals {t : Token} (ht : (t, TokenRole.equals) ∈ es'.marked) :
    t.isName = false ∧ t.content = "=" := by
  obtain ⟨m, hm, hrole, htype, hcontent⟩ := exists_of_mem_right h.alike.marked ht
  have hfits := (roles_of_valid h.tokens h.valid).1 m hm
  rw [hrole] at hfits
  have hname : t.isName = m.1.isName := by rw [Token.isName, Token.isName, htype]
  rcases hcontent with hsame | ⟨hquoted, -⟩
  · exact ⟨hname.trans hfits.1, hsame.trans hfits.2⟩
  · have hquotedName := hfits.1
    rw [hquoted] at hquotedName
    cases hquotedName

theorem lexical {m : Token × TokenRole} (hm : m ∈ es.marked) : m.1.Fits m.2 ∧ Lexical m.1 := by
  refine ⟨(roles_of_valid h.tokens h.valid).1 m hm, lexical_of_mem h.lexed ?_⟩
  rw [h.tokens, ← Entries.map_fst_marked]
  exact List.mem_map_of_mem hm

/-- If the new content opened a group, no brace would end it. -/
theorem not_opening_of_ok {es'' : Entries}
    (hlexed' : Lexed (withQuoted pre q c' post) rest)
    (htokens : textTokens (withQuoted pre q c' post) = es''.tokens)
    (hfits : ∀ m ∈ es''.marked, m.1.Fits m.2)
    (hmark : TokenPlace.free.mark (textTokens (withQuoted pre q c' post)) = es''.marked) :
    (TokenPlace.free.walk (frontTokens pre)).role (quotedToken pre q c') ≠ .opening := by
  intro hopening
  have hmem : (quotedToken pre q c', TokenRole.opening) ∈ es''.marked := by
    rw [← hmark, textTokens_withQuoted, TokenPlace.mark_append, TokenPlace.mark, hopening]
    exact List.mem_append_right _ List.mem_cons_self
  have hlexical : ∀ m ∈ es''.marked, m.1.Fits m.2 ∧ Lexical m.1 := by
    refine fun m hm => ⟨hfits m hm, lexical_of_mem hlexed' ?_⟩
    rw [htokens, ← Entries.map_fst_marked]
    exact List.mem_map_of_mem hm
  have hcorrespond := textTokens_correspond pre q c c' post
  have hopens : (textTokens (withQuoted pre q c' post)).countP Token.opens =
      (textTokens (withQuoted pre q c post)).countP Token.opens :=
    countP_corresponds (fun t t' htype hcontent => by
      simp only [Token.opens, Token.isName, Token.isChar, htype, hcontent]) rfl rfl hcorrespond
  have hcloses : (textTokens (withQuoted pre q c' post)).countP Token.closes =
      (textTokens (withQuoted pre q c post)).countP Token.closes :=
    countP_corresponds (fun t t' htype hcontent => by
      simp only [Token.closes, Token.isName, Token.isChar, htype, hcontent]) rfl rfl hcorrespond
  have hold := roleCount_opening es
  rw [roleCount_opening_eq (fun m hm => h.lexical hm) fun m hm => h.unquoted.not_name h.marks hm,
    roleCount_closing_eq fun m hm => h.lexical hm, Entries.map_fst_marked, ← h.tokens] at hold
  have hlt := countP_opens_lt hlexical hmem rfl rfl
  rw [roleCount_opening, roleCount_closing_eq hlexical, Entries.map_fst_marked, ← htokens] at hlt
  omega

theorem role_free_equals {t : Token} (ht : (t, TokenRole.equals) ∈ es'.marked) :
    TokenPlace.free.role t = .equals := by
  obtain ⟨hname, hequals⟩ := h.fits_equals ht
  have htakes : TokenPlace.free.takes t = false := by simp [TokenPlace.takes]
  rw [TokenPlace.role, if_neg (by simp [htakes]), if_neg (by simp), if_neg (by simp [hname]),
    if_pos hequals]

/-- If the new content opened a group, it would not be refused as a name that is used twice. -/
theorem not_opening_of_error (hlexed' : Lexed (withQuoted pre q c' post) rest)
    (hrising : RisingTokens (textTokens (withQuoted pre q c' post)))
    (hbuild : es'.build globalGroup = .error e) (hduplicate : e.fault.IsDuplicate)
    (hparse : parseConfig (texts (withQuoted pre q c' post) ++ rest) = some (.error e)) :
    (TokenPlace.free.walk (frontTokens pre)).role (quotedToken pre q c') ≠ .opening := by
  intro hopening
  obtain ⟨hnamed, hbrace⟩ := named_of_opening hopening
  have hparses := (parseConfig_error_iff hlexed').mp hparse
  have hended := ended_tokensAt ⟨1, 0⟩ (withQuoted pre q c' post)
  have htokens := (Entries.map_fst_marked es').trans h.replaced
  cases h.blames hbuild hduplicate with
  | keyword key pos fault changed =>
    rcases changed with hkey | ⟨k, hk, rfl, rfl⟩
    · exact hkey
    · obtain ⟨t, -, hcontent, hno⟩ := hparses.subgroupDefined hended fault
      rw [Token.isChar, ← hcontent] at hno
      exact Bool.false_ne_true (hno.symm.trans hbrace)
  | name us n vs pos split position fault changed =>
    obtain ⟨us', t, vs', hsplit, hname, hposition, -, hready, hregular⟩ :=
      hparses.keyDefined hended fault (Entries.ready_free _)
    have hne : t.type ≠ .eof := fun heof => by
      rw [Token.isName, heof] at hname
      cases hname
    obtain ⟨ws, htext⟩ := exists_textTokens_split hsplit hne
    rw [split, List.map_append, List.map_cons] at htokens
    obtain ⟨rfl, rfl, -⟩ :=
      hrising.split_unique htokens.symm htext (position.symm.trans hposition)
    rcases changed with rfl | hkey | ⟨front, k, equals, back, rfl, rfl, -⟩
    · rw [frontTokens_eq hrising htext, hnamed] at hready
      exact hready.2 ⟨rfl, hbrace⟩
    · exact hkey
    · -- The sign behind the content does not stand behind a name.
      rw [List.map_append, List.map_cons, List.map_cons] at htokens hregular
      rw [List.append_assoc] at htokens
      have hfront := frontTokens_eq hrising htokens.symm
      have hequals := h.role_free_equals (t := equals) (by simp [split])
      rw [hfront, TokenPlace.mark_append, hnamed, TokenPlace.mark, TokenPlace.mark,
        (TokenPlace.role_opening hbrace).1, (TokenPlace.role_opening hbrace).2, hequals] at hregular
      cases word_before_equals (hregular .word) rfl

/-- Behind a name, the new content is no brace. -/
theorem not_brace (hq : q ∉ c')
    (hsize : (texts (withQuoted pre q c' post) ++ rest).length < 2 ^ 32)
    (hgiven : GivenBy (texts (withQuoted pre q c' post) ++ rest) es')
    (hnamed : TokenPlace.free.walk (frontTokens pre) = .named) :
    (quotedToken pre q c').isChar '{' = false := by
  have hlexed' := lexed_withQuoted h.lexed (quoted_valid h.lexed hq (h.eofChar_notMem hq hgiven))
  have hnot : (TokenPlace.free.walk (frontTokens pre)).role (quotedToken pre q c') ≠ .opening := by
    rcases hgiven with ⟨g, l, hbuild, hparse⟩ | ⟨e, hbuild, hduplicate, hparse⟩
    · obtain ⟨es'', htokens, hfits, hmark, -⟩ := exists_entries_of_ok hlexed' hparse
      exact h.not_opening_of_ok hlexed' htokens hfits hmark
    · exact h.not_opening_of_error hlexed' (rising_textTokens hlexed' hsize) hbuild hduplicate
        hparse
  by_contra hbrace
  rw [Bool.not_eq_false] at hbrace
  exact hnot (by rw [hnamed, (TokenPlace.role_opening hbrace).1])

/-- A value is not refused as a name. -/
theorem not_value_of_error
    (hrising : RisingTokens (textTokens (withQuoted pre q c' post)))
    (hbuild : es'.build globalGroup = .error e) (hduplicate : e.fault.IsDuplicate) :
    (TokenPlace.free.walk (frontTokens pre)).role (quotedToken pre q c) ≠ .value := by
  intro hvalue
  obtain ⟨hword, -⟩ := (h.blames hbuild hduplicate).fault_eq
  obtain ⟨front, back, hsplit⟩ := List.append_of_mem hword
  obtain ⟨back', hmarked⟩ := h.marked_eq
  have htokens := (Entries.map_fst_marked es').trans h.replaced
  rw [hsplit, List.map_append, List.map_cons] at htokens
  have hfront := congrArg List.length (frontTokens_eq hrising htokens.symm)
  rw [List.length_map] at hfront
  obtain ⟨-, hsame⟩ := List.append_inj (hsplit.symm.trans hmarked)
    (by rw [Entries.length_mark, hfront])
  rw [List.cons.injEq, Prod.mk.injEq, hvalue] at hsame
  cases hsame.1.2

/-- The values of the new text are as many as those of the old one. -/
theorem roleCount_value_eq {es'' : Entries} (hbuild : es'.build globalGroup = .ok g)
    (hbuild' : es''.build globalGroup = .ok g) :
    roleCount .value es.marked = roleCount .value es''.marked := by
  have hlength := length_allValues_build hbuild
  have hlength' := length_allValues_build hbuild'
  rw [← roleCount_congr h.alike.map_snd]
  omega

end Replaced

theorem Shifted.symm {n : UInt32} {t t' : Token} (h : Shifted n t t') : Shifted (-n) t' t := by
  refine ⟨h.type.symm, h.content.symm, ?_⟩
  rw [h.line]
  grind

/-- As many values stand behind a value in both texts only if the next one is on its line in both
or in none. -/
theorem joins_of_roleCount_eq {n number : UInt32} {t t' : Token} {ts ts' : List Token}
    (ht : Shifted n t t') (hts : List.Forall₂ (Shifted n) ts ts')
    (hlexical : ∀ u ∈ t :: ts, Lexical u) (hlexical' : ∀ u ∈ t' :: ts', Lexical u)
    (hvalue : t.isValue = true)
    (hcount : roleCount .value ((TokenPlace.line number).mark (t :: ts)) =
      roleCount .value ((TokenPlace.line number).mark (t' :: ts'))) :
    t.position.lineNumber = number ↔ t'.position.lineNumber = number := by
  have hvalue' : t'.isValue = true := (TokenPlace.isValue_of_type ht.type).trans hvalue
  have htakes {u : Token} (hu : u.isValue = true) :
      (TokenPlace.line number).takes u = true ↔ u.position.lineNumber = number := by
    rw [← not_iff_not, Bool.not_eq_true, TokenPlace.takes_line_eq_false]
    simp [hu]
  rw [← htakes hvalue, ← htakes hvalue']
  by_contra hne
  cases hold : (TokenPlace.line number).takes t with
  | true =>
    have hnew : (TokenPlace.line number).takes t' = false := by simpa [hold] using hne
    have hback : List.Forall₂ (Shifted (-n)) ts' ts :=
      List.Forall₂.flip (hts.imp fun _ _ hu => hu.symm)
    have hlt := TokenPlace.roleCount_value_lt ht.symm hback hlexical' hnew hold
    exact absurd hcount.symm hlt.ne
  | false =>
    have hnew : (TokenPlace.line number).takes t' = true := by simpa [hold] using hne
    exact absurd hcount (TokenPlace.roleCount_value_lt ht hts hlexical hold hnew).ne

/-- The tokens behind the quoted text. -/
def behindText (pre : List Piece) (q : Char) (c : List Char) (post : List Piece) : List Token :=
  (pieceTokens ((⟨1, 0⟩ : Position).pastAll (texts (pre ++ [.quoted q c]))) post).map Prod.snd

theorem textTokens_eq (pre : List Piece) (q : Char) (c : List Char) (post : List Piece) :
    textTokens (withQuoted pre q c post) =
      frontTokens pre ++ quotedToken pre q c :: behindText pre q c post :=
  textTokens_withQuoted pre q c post

theorem nextToken_behindTokens {t : Token} {ts : List Token}
    (h : behindText pre q c post = t :: ts) : nextToken (behindTokens pre q c post) = t := by
  rw [behindTokens, tokensAt_eq_pieceTokens]
  rw [behindText] at h
  rw [h]
  rfl

theorem roleCount_value_quoted
    (htakes : (TokenPlace.free.walk (frontTokens pre)).takes (quotedToken pre q c) = true) :
    roleCount .value (TokenPlace.free.mark (textTokens (withQuoted pre q c post))) =
      roleCount .value (TokenPlace.free.mark (frontTokens pre)) +
        (roleCount .value ((TokenPlace.line (quotedToken pre q c).position.lineNumber).mark
          (behindText pre q c post)) + 1) := by
  rw [textTokens_eq, TokenPlace.mark_append, roleCount_append,
    TokenPlace.roleCount_value_of_takes htakes]

/-- Where the text is a value, the next one is on its line in both texts or in none. -/
theorem Replaced.line (h : Replaced pre q c c' post rest es es') (hq : q ∉ c')
    (hsize : (texts (withQuoted pre q c' post) ++ rest).length < 2 ^ 32)
    (hgiven : GivenBy (texts (withQuoted pre q c' post) ++ rest) es')
    (hvalue : (TokenPlace.free.walk (frontTokens pre)).role (quotedToken pre q c) = .value)
    (hnext : (nextToken (behindTokens pre q c post)).isValue = true) :
    (nextToken (behindTokens pre q c post)).position.lineNumber =
        (quotedToken pre q c).position.lineNumber ↔
      (nextToken (behindTokens pre q c' post)).position.lineNumber =
        (quotedToken pre q c).position.lineNumber := by
  have hlexed' := lexed_withQuoted h.lexed (quoted_valid h.lexed hq (h.eofChar_notMem hq hgiven))
  rcases hgiven with ⟨g, l, hbuild, hparse⟩ | ⟨e, hbuild, hduplicate, -⟩
  · obtain ⟨es'', htokens, hfits, hmark, hbuild'⟩ := exists_entries_of_ok hlexed' hparse
    have htakes := Entries.takes_of_role hvalue
    have htakes' : (TokenPlace.free.walk (frontTokens pre)).takes (quotedToken pre q c') = true :=
      htakes
    have hcount := h.roleCount_value_eq hbuild hbuild'
    rw [← h.marks, ← hmark, roleCount_value_quoted htakes, roleCount_value_quoted htakes'] at hcount
    have hshifted : List.Forall₂ (Shifted (lineShift pre q c c')) (behindText pre q c post)
        (behindText pre q c' post) := pieceTokens_shifted (lineNumber_behind pre q c c') post
    have hlexical {d : List Char} (hlexed : Lexed (withQuoted pre q d post) rest) :
        ∀ u ∈ behindText pre q d post, Lexical u := by
      intro u hu
      refine lexical_of_mem hlexed ?_
      rw [textTokens_eq]
      exact List.mem_append_right _ (List.mem_cons_of_mem _ hu)
    have hold := hlexical h.lexed
    have hnew := hlexical hlexed'
    cases hts : behindText pre q c post with
    | nil =>
      -- The next token is the end of the input.
      rw [behindTokens, tokensAt_eq_pieceTokens] at hnext
      rw [behindText] at hts
      rw [hts] at hnext
      cases hnext
    | cons t ts =>
      rw [hts] at hshifted hold hcount
      generalize hts' : behindText pre q c' post = us at hshifted hnew hcount
      cases hshifted with
      | @cons _ t' _ ts' ht hbehind =>
        rw [nextToken_behindTokens hts] at hnext ⊢
        rw [nextToken_behindTokens hts']
        exact joins_of_roleCount_eq ht hbehind hold hnew hnext
          (Nat.add_right_cancel (Nat.add_left_cancel hcount))
  · exact absurd hvalue (h.not_value_of_error (rising_textTokens hlexed' hsize) hbuild hduplicate)

/-- Where only the content changes, it stays a text. -/
theorem Replaced.staysText (h : Replaced pre q c c' post rest es es') (hq : q ∉ c')
    (hsize : (texts (withQuoted pre q c' post) ++ rest).length < 2 ^ 32)
    (hgiven : GivenBy (texts (withQuoted pre q c' post) ++ rest) es') :
    StaysText pre q c c' post where
  braces _ _ _ := h.braces
  closed := h.unquoted.closed h.tokens h.valid
  content := h.eofChar_notMem hq hgiven
  brace := h.not_brace hq hsize hgiven
  line := h.line hq hsize hgiven

end Outcomes

end Ctguard
