import Ctguard.AcceptedConfigs
import Ctguard.TokenRoles
import Mathlib.Data.List.Forall2

/-!
# Other contents of quoted texts

A quoted text of an accepted configuration gets another content. What stands behind it moves, by a
number of lines that is the same for all tokens.
-/

namespace Ctguard

/-- The pieces that are tokens, each with its token. -/
def pieceTokens : Position → List Piece → List (Piece × Token)
  | _, [] => []
  | pos, p :: ps =>
    match p.token? with
    | some (type, content) =>
      (p, ⟨type, pos.past p.head, content⟩) :: pieceTokens (pos.pastAll p.text) ps
    | none => pieceTokens (pos.pastAll p.text) ps

/-- The token at the end of the input. -/
def eofToken (pos : Position) : Token := ⟨.eof, pos.past eofChar, ""⟩

section Pieces

variable {pos : Position} {ps qs : List Piece}

theorem tokensAt_eq_pieceTokens (pos : Position) (ps : List Piece) :
    tokensAt pos ps =
      (pieceTokens pos ps).map Prod.snd ++ [eofToken (pos.pastAll (texts ps))] := by
  induction ps generalizing pos with
  | nil => rfl
  | cons p ps ih =>
    rw [tokensAt, pieceTokens, texts_cons, Position.pastAll_append]
    cases p.token? with
    | none => exact ih _
    | some token => exact congrArg (_ :: ·) (ih _)

theorem pieceTokens_append (pos : Position) (ps qs : List Piece) :
    pieceTokens pos (ps ++ qs) =
      pieceTokens pos ps ++ pieceTokens (pos.pastAll (texts ps)) qs := by
  induction ps generalizing pos with
  | nil => rfl
  | cons p ps ih =>
    rw [List.cons_append, pieceTokens, pieceTokens, texts_cons, Position.pastAll_append]
    cases p.token? with
    | none => exact ih _
    | some token => exact congrArg (_ :: ·) (ih _)

/-- Each token has the type and the content of its piece. -/
theorem token?_of_mem {m : Piece × Token} (h : m ∈ pieceTokens pos ps) :
    m.1 ∈ ps ∧ m.1.token? = some (m.2.type, m.2.content) := by
  induction ps generalizing pos with
  | nil => exact absurd h List.not_mem_nil
  | cons p ps ih =>
    rw [pieceTokens] at h
    cases htoken : p.token? with
    | none =>
      rw [htoken] at h
      obtain ⟨hmem, heq⟩ := ih h
      exact ⟨List.mem_cons_of_mem _ hmem, heq⟩
    | some token =>
      rw [htoken] at h
      rcases List.mem_cons.mp h with rfl | h
      · exact ⟨List.mem_cons_self, htoken⟩
      · obtain ⟨hmem, heq⟩ := ih h
        exact ⟨List.mem_cons_of_mem _ hmem, heq⟩

/-- A token that is the same except for its place, which is some lines further. -/
structure Shifted (n : UInt32) (t t' : Token) : Prop where
  type : t'.type = t.type
  content : t'.content = t.content
  line : t'.position.lineNumber = t.position.lineNumber + n

theorem lineNumber_past {p p' : Position} {n : UInt32} (h : p'.lineNumber = p.lineNumber + n)
    (c : Char) : (p'.past c).lineNumber = (p.past c).lineNumber + n := by
  rw [Position.past, Position.past]
  split
  · simp only [Position.lineBreak, h]
    grind
  split
  · exact h
  · exact h

theorem lineNumber_pastAll {p p' : Position} {n : UInt32} (h : p'.lineNumber = p.lineNumber + n)
    (cs : List Char) : (p'.pastAll cs).lineNumber = (p.pastAll cs).lineNumber + n := by
  induction cs generalizing p p' with
  | nil => exact h
  | cons c cs ih => exact ih (lineNumber_past h c)

/-- The tokens of the same pieces some lines further. -/
theorem pieceTokens_shifted {p p' : Position} {n : UInt32} (h : p'.lineNumber = p.lineNumber + n)
    (ps : List Piece) : List.Forall₂ (Shifted n) ((pieceTokens p ps).map Prod.snd)
      ((pieceTokens p' ps).map Prod.snd) := by
  induction ps generalizing p p' with
  | nil => exact .nil
  | cons q ps ih =>
    rw [pieceTokens, pieceTokens]
    cases q.token? with
    | none => exact ih (lineNumber_pastAll h _)
    | some token => exact .cons ⟨rfl, rfl, lineNumber_past h _⟩ (ih (lineNumber_pastAll h _))

theorem tokensAt_shifted {p p' : Position} {n : UInt32} (h : p'.lineNumber = p.lineNumber + n)
    (ps : List Piece) : List.Forall₂ (Shifted n) (tokensAt p ps) (tokensAt p' ps) := by
  rw [tokensAt_eq_pieceTokens, tokensAt_eq_pieceTokens]
  exact List.rel_append (pieceTokens_shifted h ps)
    (.cons ⟨rfl, rfl, lineNumber_past (lineNumber_pastAll h _) _⟩ .nil)

end Pieces

namespace TokenPlace

variable {s : TokenPlace} {t t' : Token} {n : UInt32}

/-- The same place some lines further. -/
def shift (n : UInt32) : TokenPlace → TokenPlace
  | line number => line (number + n)
  | s => s

theorem takes_shift (h : Shifted n t t') (s : TokenPlace) : (s.shift n).takes t' = s.takes t := by
  have hvalue : t'.isValue = t.isValue := by rw [Token.isValue, Token.isName, h.type]; rfl
  rw [takes, takes, hvalue, h.line]
  cases s with
  | line number =>
    have hadd : number + n = t.position.lineNumber + n ↔ number = t.position.lineNumber := by grind
    simp [shift, hadd]
  | free | named | assigned => simp [shift]

theorem isChar_shift (h : Shifted n t t') (c : Char) : t'.isChar c = t.isChar c := by
  rw [Token.isChar, h.content]
  rfl

theorem role_shift (h : Shifted n t t') (s : TokenPlace) :
    (s.shift n).role t' = s.role t ∧ (s.shift n).next t' = (s.next t).shift n := by
  have hname : t'.isName = t.isName := by rw [Token.isName, h.type]; rfl
  have hnamed : s.shift n = .named ↔ s = .named := by cases s <;> simp [shift]
  have hrole : (s.shift n).role t' = s.role t := by
    simp only [role, takes_shift h, isChar_shift h, hname, h.content, hnamed]
  refine ⟨hrole, ?_⟩
  rw [next, next, hrole]
  cases s.role t with
  | value => simp [behind, shift, h.line]
  | word | equals | opening | closing => rfl

theorem roles_shift {ts ts' : List Token} (h : List.Forall₂ (Shifted n) ts ts') (s : TokenPlace) :
    ((s.shift n).mark ts').map Prod.snd = (s.mark ts).map Prod.snd := by
  induction h generalizing s with
  | nil => rfl
  | cons ht _ ih =>
    obtain ⟨hrole, hnext⟩ := role_shift ht s
    rw [mark, mark, List.map_cons, List.map_cons, hrole, hnext, ih]

theorem isValue_of_type (h : t'.type = t.type) : t'.isValue = t.isValue := by
  rw [Token.isValue, Token.isValue, Token.isName, Token.isName, h]

/-- A string is a word or a value where it opens no group. -/
theorem role_string (ht : t.type = .string) (hbrace : s = .named → t.isChar '{' = false) :
    s.role t = .value ∧ s.takes t = true ∨ s.role t = .word ∧ s.takes t = false := by
  have hname : t.isName = true := by simp [Token.isName, ht]
  rw [role]
  cases htakes : s.takes t with
  | true => exact .inl ⟨rfl, rfl⟩
  | false =>
    have hopens : ¬ (s = .named ∧ t.isChar '{' = true) := by
      rintro ⟨hnamed, hchar⟩
      rw [hbrace hnamed] at hchar
      exact Bool.false_ne_true hchar
    rw [if_neg Bool.false_ne_true, if_neg hopens, if_pos hname]
    exact .inr ⟨rfl, rfl⟩

theorem takes_line_eq_false {number : UInt32} :
    (line number).takes t = false ↔
      ¬ (t.isValue = true ∧ t.position.lineNumber = number) := by
  have hline : line number = line t.position.lineNumber ↔ t.position.lineNumber = number := by
    rw [line.injEq]
    exact eq_comm
  simp [takes, hline]

/-- Where no more values are taken, a line is as good as a free place. -/
theorem mark_line {number : UInt32} (h : (line number).takes t = false) (ts : List Token) :
    (line number).mark (t :: ts) = free.mark (t :: ts) := by
  have hfree : free.takes t = false := by simp [takes]
  have hrole : (line number).role t = free.role t := by simp [role, h, hfree]
  rw [mark, mark, next, next, hrole]

/-- A string that is replaced at its place, and what stands behind it, keep their roles. -/
theorem roles_replaced {ts ts' : List Token} (htype : t.type = .string) (htype' : t'.type = .string)
    (hposition : t'.position = t.position)
    (hbrace : s = .named → t.isChar '{' = false ∧ t'.isChar '{' = false)
    (hts : List.Forall₂ (Shifted n) ts ts')
    (hline : s.role t = .value → (nextToken ts).isValue = true →
      ((nextToken ts).position.lineNumber = t.position.lineNumber ↔
        (nextToken ts').position.lineNumber = t.position.lineNumber)) :
    (s.mark (t' :: ts')).map Prod.snd = (s.mark (t :: ts)).map Prod.snd := by
  have htakes : s.takes t' = s.takes t := by
    rw [takes, takes, isValue_of_type (htype'.trans htype.symm), hposition]
  have hrole : s.role t' = s.role t := by
    rcases role_string htype fun h => (hbrace h).1 with ⟨hrole, ht⟩ | ⟨hrole, ht⟩ <;>
      rcases role_string htype' fun h => (hbrace h).2 with ⟨hrole', ht'⟩ | ⟨hrole', ht'⟩
    all_goals simp_all
  have hnext : s.next t' = s.next t := by
    rw [next, next, hrole]
    cases s.role t <;> simp [behind, hposition]
  rw [mark, mark, List.map_cons, List.map_cons, hrole, hnext]
  refine congrArg (_ :: ·) ?_
  rcases role_string htype fun h => (hbrace h).1 with ⟨hvalue, -⟩ | ⟨hword, -⟩
  · rw [next_of_role hvalue, behind]
    cases hts with
    | nil => rfl
    | @cons v v' us us' hv hus =>
      have hline' := hline hvalue
      rw [nextToken_cons, nextToken_cons, hv.line] at hline'
      by_cases hjoins : v.isValue = true ∧ v.position.lineNumber = t.position.lineNumber
      · -- The next token is on the line in both texts, so it has not moved.
        have hmoved := (hline' hjoins.1).mp hjoins.2
        have hn : t.position.lineNumber + n = t.position.lineNumber := by
          rw [hjoins.2] at hmoved
          exact hmoved
        have hroles := roles_shift (.cons hv hus) (.line t.position.lineNumber)
        rwa [shift, hn] at hroles
      · have htakes : (line t.position.lineNumber).takes v = false := by
          rw [takes_line_eq_false]
          exact hjoins
        have htakes' : (line t.position.lineNumber).takes v' = false := by
          rw [takes_line_eq_false, isValue_of_type hv.type, hv.line]
          exact fun h => hjoins ⟨h.1, (hline' h.1).mpr h.2⟩
        rw [mark_line htakes, mark_line htakes']
        exact roles_shift (.cons hv hus) .free
  · rw [next_of_role hword]
    exact roles_shift hts .named

end TokenPlace

/-- Entries of the same form, whose tokens correspond. -/
inductive Entries.Alike (R : TokenRole → Token → Token → Prop) : Entries → Entries → Prop
  | nil : Alike R .nil .nil
  | option {n e v n' e' v' : Token} {more more' : List Token} {rest rest' : Entries}
      (name : R .word n n') (equals : R .equals e e') (value : R .value v v')
      (values : List.Forall₂ (R .value) more more') (behind : Alike R rest rest') :
      Alike R (.option n e v more rest) (.option n' e' v' more' rest')
  | plain {n k n' k' : Token} {rest rest' : Entries} (name : R .word n n')
      (keyword : R .word k k') (behind : Alike R rest rest') :
      Alike R (.plain n k rest) (.plain n' k' rest')
  | braced {n o c n' o' c' : Token} {k k' : Option Token} {body rest body' rest' : Entries}
      (name : R .word n n') (keyword : Option.Rel (R .word) k k') (opening : R .opening o o')
      (inner : Alike R body body') (closing : R .closing c c') (behind : Alike R rest rest') :
      Alike R (.braced n k o body c rest) (.braced n' k' o' body' c' rest')

section Alike

variable {R R' : TokenRole → Token → Token → Prop} {es es' : Entries}

theorem exists_forall₂_append {α β : Type} {S : α → β → Prop} {xs ys : List α} {zs : List β}
    (h : List.Forall₂ S (xs ++ ys) zs) :
    ∃ xs' ys', zs = xs' ++ ys' ∧ List.Forall₂ S xs xs' ∧ List.Forall₂ S ys ys' := by
  induction xs generalizing zs with
  | nil => exact ⟨[], zs, rfl, .nil, h⟩
  | cons x xs ih =>
    cases h with
    | cons hx h =>
      obtain ⟨xs', ys', rfl, hxs, hys⟩ := ih h
      exact ⟨_ :: xs', ys', rfl, .cons hx hxs, hys⟩

/-- Corresponding tokens make entries of the same form. -/
theorem exists_alike {ts : List Token}
    (h : List.Forall₂ (fun m t => R m.2 m.1 t) es.marked ts) :
    ∃ es', es.Alike R es' ∧ es'.tokens = ts := by
  induction es generalizing ts with
  | nil => cases h; exact ⟨.nil, .nil, rfl⟩
  | option name equals value more rest ih =>
    rcases h with _ | ⟨hname, _ | ⟨hequals, _ | ⟨hvalue, h⟩⟩⟩
    obtain ⟨more', ts, rfl, hmore, hrest⟩ := exists_forall₂_append h
    obtain ⟨rest', hbehind, rfl⟩ := ih hrest
    rw [List.forall₂_map_left_iff] at hmore
    exact ⟨.option _ _ _ more' rest', .option hname hequals hvalue hmore hbehind, rfl⟩
  | plain name keyword rest ih =>
    rcases h with _ | ⟨hname, _ | ⟨hkeyword, h⟩⟩
    obtain ⟨rest', hbehind, rfl⟩ := ih h
    exact ⟨.plain _ _ rest', .plain hname hkeyword hbehind, rfl⟩
  | braced name keyword opening body closing rest ihBody ihRest =>
    rcases h with _ | ⟨hname, hopens⟩
    obtain ⟨ks, ts, rfl, hkeywords, hinner⟩ := exists_forall₂_append hopens
    rcases hinner with _ | ⟨hopening, hcloses⟩
    obtain ⟨bs, ts, rfl, hbody, hbehind⟩ := exists_forall₂_append hcloses
    rcases hbehind with _ | ⟨hclosing, hrest⟩
    obtain ⟨body', hinner, rfl⟩ := ihBody hbody
    obtain ⟨rest', hbehind, rfl⟩ := ihRest hrest
    have hkeyword : ∃ k', Option.Rel (R .word) keyword k' ∧ k'.toList = ks := by
      cases keyword with
      | none => cases hkeywords; exact ⟨none, .none, rfl⟩
      | some k =>
        rcases hkeywords with _ | ⟨hk, _ | _⟩
        exact ⟨some _, .some hk, rfl⟩
    obtain ⟨k', hkeyword, rfl⟩ := hkeyword
    exact ⟨.braced _ k' _ body' _ rest', .braced hname hkeyword hopening hinner hclosing hbehind,
      rfl⟩

theorem Entries.Alike.marked (h : es.Alike R es') :
    List.Forall₂ (fun m m' => m.2 = m'.2 ∧ R m.2 m.1 m'.1) es.marked es'.marked := by
  induction h with
  | nil => exact .nil
  | option name equals value values _ ih =>
    refine .cons ⟨rfl, name⟩ (.cons ⟨rfl, equals⟩ (.cons ⟨rfl, value⟩ (List.rel_append ?_ ih)))
    rw [List.forall₂_map_left_iff, List.forall₂_map_right_iff]
    exact values.imp fun _ _ hv => ⟨rfl, hv⟩
  | plain name keyword _ ih => exact .cons ⟨rfl, name⟩ (.cons ⟨rfl, keyword⟩ ih)
  | braced name keyword opening _ closing _ ihInner ihBehind =>
    refine .cons ⟨rfl, name⟩ (List.rel_append ?_ (.cons ⟨rfl, opening⟩
      (List.rel_append ihInner (.cons ⟨rfl, closing⟩ ihBehind))))
    cases keyword with
    | none => exact .nil
    | some hk => exact .cons ⟨rfl, hk⟩ .nil

theorem Entries.Alike.map_snd (h : es.Alike R es') :
    es'.marked.map Prod.snd = es.marked.map Prod.snd := by
  have hmarked := h.marked
  generalize es.marked = ms at hmarked ⊢
  generalize es'.marked = ms' at hmarked ⊢
  induction hmarked with
  | nil => rfl
  | cons hm _ ih => exact congrArg₂ List.cons hm.1.symm ih

end Alike

section Texts

/-- The text with another content between two of its quotes. -/
def withQuoted (pre : List Piece) (q : Char) (c : List Char) (post : List Piece) : List Piece :=
  pre ++ .quoted q c :: post

/-- The tokens in front of the quoted text. -/
def frontTokens (pre : List Piece) : List Token := (pieceTokens ⟨1, 0⟩ pre).map Prod.snd

def quotedToken (pre : List Piece) (q : Char) (c : List Char) : Token :=
  ⟨.string, ((⟨1, 0⟩ : Position).pastAll (texts pre)).past q, String.ofList c⟩

/-- The tokens behind the quoted text, with the end of the input. -/
def behindTokens (pre : List Piece) (q : Char) (c : List Char) (post : List Piece) : List Token :=
  tokensAt ((⟨1, 0⟩ : Position).pastAll (texts (pre ++ [.quoted q c]))) post

/-- No string stands for a brace, and no text is left unclosed: neither before, nor with the new
content. -/
structure StaysText (pre : List Piece) (q : Char) (c c' : List Char) (post : List Piece) : Prop where
  braces : ∀ ts t us, tokensAt ⟨1, 0⟩ (withQuoted pre q c post) = ts ++ t :: us →
    t.type = .string → TokenPlace.free.walk ts = .named → t.isChar '{' = false
  closed : ∀ p ∈ withQuoted pre q c post, ∀ q' cs, p ≠ .unclosed q' cs
  content : eofChar ∉ c'
  brace : TokenPlace.free.walk (frontTokens pre) = .named →
    (quotedToken pre q c').isChar '{' = false
  line : (TokenPlace.free.walk (frontTokens pre)).role (quotedToken pre q c) = .value →
    (nextToken (behindTokens pre q c post)).isValue = true →
      ((nextToken (behindTokens pre q c post)).position.lineNumber =
          (quotedToken pre q c).position.lineNumber ↔
        (nextToken (behindTokens pre q c' post)).position.lineNumber =
          (quotedToken pre q c).position.lineNumber)

/-- What stands between the words and the values of a text, or opens and ends its groups, is not
quoted. -/
def PunctuationUnquoted (ps : List Piece) (es : Entries) : Prop :=
  ∀ m ∈ (pieceTokens ⟨1, 0⟩ ps).zip (es.marked.map Prod.snd),
    m.2 = .equals ∨ m.2 = .opening ∨ m.2 = .closing → ∃ c, m.1.1 = .mark c

/-- The text is read as the entries, unless a name or a keyword of theirs has been defined. -/
def GivenBy (text : List Char) (es : Entries) : Prop :=
  (∃ g l, es.build globalGroup = .ok g ∧ parseConfig text = some (.ok (g, l))) ∨
    ∃ e, es.build globalGroup = .error e ∧ e.fault.IsDuplicate ∧
      parseConfig text = some (.error e)

variable {pre post : List Piece} {q : Char} {c c' rest : List Char} {es es' : Entries}

theorem tokensAt_withQuoted (pre : List Piece) (q : Char) (c : List Char) (post : List Piece) :
    tokensAt ⟨1, 0⟩ (withQuoted pre q c post) =
      frontTokens pre ++ quotedToken pre q c :: behindTokens pre q c post := by
  rw [behindTokens, tokensAt_eq_pieceTokens, tokensAt_eq_pieceTokens, withQuoted,
    pieceTokens_append, pieceTokens]
  simp [Piece.token?, frontTokens, quotedToken, Position.pastAll_append, Piece.head]

theorem stops_congr {p : Piece} {after after' : List Char} (h : after.head? = after'.head?) :
    p.Stops after ↔ p.Stops after' := by
  cases p <;> simp only [Piece.Stops, h]

/-- What stands in front of a piece is read as before where the piece is replaced by one with the
same first character. -/
theorem Lexed.replace {p p' : Piece} {post' : List Piece} {rest' : List Char}
    (h : Lexed (pre ++ p :: post) rest) (hhead : p'.head = p.head)
    (h' : Lexed (p' :: post') rest') : Lexed (pre ++ p' :: post') rest' := by
  induction pre with
  | nil => exact h'
  | cons r pre ih =>
    rcases h with _ | ⟨valid, stops, behind⟩
    refine .cons valid ((stops_congr ?_).mp stops) (ih behind)
    cases pre with
    | nil => exact congrArg some hhead.symm
    | cons => rfl

theorem Lexed.suffix (h : Lexed (pre ++ post) rest) : Lexed post rest := by
  induction pre with
  | nil => exact h
  | cons r pre ih =>
    rcases h with _ | ⟨valid, stops, behind⟩
    exact ih behind

theorem lexed_withQuoted (h : Lexed (withQuoted pre q c post) rest)
    (hc : (Piece.quoted q c').Valid) : Lexed (withQuoted pre q c' post) rest := by
  have hbehind : Lexed post rest := by
    rcases @Lexed.suffix pre (.quoted q c :: post) _ h with _ | ⟨_, _, behind⟩
    exact behind
  exact h.replace rfl (.cons hc trivial hbehind)

/-- The tokens of a text up to its end. -/
def textTokens (ps : List Piece) : List Token := (pieceTokens ⟨1, 0⟩ ps).map Prod.snd

theorem tokensAt_eq_textTokens (ps : List Piece) : tokensAt ⟨1, 0⟩ ps =
    textTokens ps ++ [eofToken ((⟨1, 0⟩ : Position).pastAll (texts ps))] :=
  tokensAt_eq_pieceTokens _ _

theorem writtenAs_iff {ps : List Piece} (h : Lexed ps rest) :
    WrittenAs (texts ps ++ rest) es ↔ textTokens ps = es.tokens ∧
      es.Valid (eofToken ((⟨1, 0⟩ : Position).pastAll (texts ps))) := by
  rw [WrittenAs, tokensOf_eq h, tokensAt_eq_textTokens]
  constructor
  · rintro ⟨after, _, htokens, hvalid⟩
    obtain ⟨htokens, hafter⟩ := List.append_inj' htokens rfl
    rw [List.cons.injEq] at hafter
    exact ⟨htokens, hafter.1 ▸ hvalid⟩
  · rintro ⟨htokens, hvalid⟩
    exact ⟨_, rfl, by rw [htokens], hvalid⟩

/-- The tokens of the old and of the new text. -/
def Corresponds (t₀ t₀' t t' : Token) : Prop :=
  t'.type = t.type ∧ (t'.content = t.content ∨ t = t₀ ∧ t' = t₀')

theorem textTokens_withQuoted (pre : List Piece) (q : Char) (c : List Char) (post : List Piece) :
    textTokens (withQuoted pre q c post) = frontTokens pre ++ quotedToken pre q c ::
      (pieceTokens ((⟨1, 0⟩ : Position).pastAll (texts (pre ++ [.quoted q c]))) post).map
        Prod.snd := by
  rw [textTokens, withQuoted, pieceTokens_append, pieceTokens]
  simp [Piece.token?, frontTokens, quotedToken, Position.pastAll_append, Piece.head]

/-- How many lines further the tokens behind the text stand. -/
def lineShift (pre : List Piece) (q : Char) (c c' : List Char) : UInt32 :=
  ((⟨1, 0⟩ : Position).pastAll (texts (pre ++ [.quoted q c']))).lineNumber -
    ((⟨1, 0⟩ : Position).pastAll (texts (pre ++ [.quoted q c]))).lineNumber

theorem lineNumber_behind (pre : List Piece) (q : Char) (c c' : List Char) :
    ((⟨1, 0⟩ : Position).pastAll (texts (pre ++ [.quoted q c']))).lineNumber =
      ((⟨1, 0⟩ : Position).pastAll (texts (pre ++ [.quoted q c]))).lineNumber +
        lineShift pre q c c' := by
  rw [lineShift]
  grind

theorem forall₂_same {S : Token → Token → Prop} (hS : ∀ t, S t t) (ts : List Token) :
    List.Forall₂ S ts ts := List.forall₂_same.mpr fun t _ => hS t

theorem textTokens_correspond (pre : List Piece) (q : Char) (c c' : List Char)
    (post : List Piece) :
    List.Forall₂ (Corresponds (quotedToken pre q c) (quotedToken pre q c'))
      (textTokens (withQuoted pre q c post)) (textTokens (withQuoted pre q c' post)) := by
  rw [textTokens_withQuoted, textTokens_withQuoted]
  refine List.rel_append (forall₂_same (fun t => ⟨rfl, .inl rfl⟩) _)
    (.cons ⟨rfl, .inr ⟨rfl, rfl⟩⟩ ?_)
  exact (pieceTokens_shifted (lineNumber_behind pre q c c') post).imp
    fun t t' h => ⟨h.type, .inl h.content⟩

/-- The entries of the old text with the tokens of the new one. -/
theorem exists_replaced (h : textTokens (withQuoted pre q c post) = es.tokens) (c' : List Char) :
    ∃ es', es.Alike (fun _ => Corresponds (quotedToken pre q c) (quotedToken pre q c')) es' ∧
      es'.tokens = textTokens (withQuoted pre q c' post) := by
  refine exists_alike ?_
  have hcorrespond := textTokens_correspond pre q c c' post
  rwa [h, ← Entries.map_fst_marked, List.forall₂_map_left_iff] at hcorrespond

/-- A string in the role of a brace stands behind a name or a keyword. -/
theorem exists_of_mem_mark {s : TokenPlace} {ts : List Token} {m : Token × TokenRole}
    (h : m ∈ s.mark ts) :
    ∃ us vs, ts = us ++ m.1 :: vs ∧ m.2 = (s.walk us).role m.1 := by
  induction ts generalizing s with
  | nil => exact absurd h List.not_mem_nil
  | cons t ts ih =>
    rcases List.mem_cons.mp h with rfl | h
    · exact ⟨[], ts, rfl, rfl⟩
    · obtain ⟨us, vs, rfl, hrole⟩ := ih h
      exact ⟨t :: us, vs, rfl, hrole⟩

theorem named_of_opening {s : TokenPlace} {t : Token} (h : s.role t = .opening) :
    s = .named ∧ t.isChar '{' = true := by
  rw [TokenPlace.role] at h
  split at h
  · cases h
  split at h
  · assumption
  split at h
  · cases h
  split at h <;> cases h

/-- Tokens of the same type and content fit the same roles. -/
theorem fits_congr {t t' : Token} (htype : t'.type = t.type) (hcontent : t'.content = t.content)
    {r : TokenRole} (h : t.Fits r) : t'.Fits r := by
  have hname : t'.isName = t.isName := by rw [Token.isName, Token.isName, htype]
  have hchar : ∀ c, t'.isChar c = t.isChar c := fun c => by
    rw [Token.isChar, Token.isChar, hcontent]
  cases r with
  | word => exact hname.trans h
  | equals => exact ⟨hname.trans h.1, hcontent.trans h.2⟩
  | value => exact (TokenPlace.isValue_of_type htype).trans h
  | opening => exact (hchar _).trans h
  | closing => exact ⟨hname.trans h.1, (hchar _).trans h.2⟩

theorem fits_string {t t' : Token} (ht : t.type = .string) (ht' : t'.type = .string)
    {r : TokenRole} (hr : r ≠ .opening) (h : t.Fits r) : t'.Fits r := by
  have hname : t.isName = true := by simp [Token.isName, ht]
  have hname' : t'.isName = true := by simp [Token.isName, ht']
  cases r with
  | word => exact hname'
  | equals => exact absurd (hname.symm.trans h.1) (by decide)
  | value => exact Token.isValue_of_isName hname'
  | opening => exact absurd rfl hr
  | closing => exact absurd (hname.symm.trans h.1) (by decide)

section Replacing

/-- The roles of the tokens of the old text. -/
theorem roles_of_valid {ps : List Piece} (htokens : textTokens ps = es.tokens)
    (hvalid : es.Valid (eofToken ((⟨1, 0⟩ : Position).pastAll (texts ps)))) :
    (∀ m ∈ es.marked, m.1.Fits m.2) ∧ TokenPlace.free.mark (textTokens ps) = es.marked ∧
      (TokenPlace.free.mark (tokensAt ⟨1, 0⟩ ps)).map Prod.snd =
        es.marked.map Prod.snd ++ [.closing] := by
  obtain ⟨hfits, hroles⟩ := (Entries.valid_iff ⟨rfl, rfl⟩).mp hvalid
  rw [tokensAt_eq_textTokens, htokens]
  exact ⟨hfits, (hvalid.mark_eq (Entries.ready_free _)).1, hroles⟩

/-- With the new content, the tokens keep their roles. -/
theorem StaysText.roles_eq (h : StaysText pre q c c' post) :
    (TokenPlace.free.mark (tokensAt ⟨1, 0⟩ (withQuoted pre q c' post))).map Prod.snd =
      (TokenPlace.free.mark (tokensAt ⟨1, 0⟩ (withQuoted pre q c post))).map Prod.snd := by
  have hold := h.braces (frontTokens pre) (quotedToken pre q c) _
    (tokensAt_withQuoted pre q c post) rfl
  rw [tokensAt_withQuoted, tokensAt_withQuoted, TokenPlace.mark_append, TokenPlace.mark_append,
    List.map_append, List.map_append]
  refine congrArg (_ ++ ·) (TokenPlace.roles_replaced rfl rfl rfl (fun hs => ⟨hold hs, h.brace hs⟩)
    (tokensAt_shifted (lineNumber_behind pre q c c') post) h.line)

theorem exists_of_mem_right {α β : Type} {S : α → β → Prop} {xs : List α} {ys : List β}
    (h : List.Forall₂ S xs ys) {y : β} (hy : y ∈ ys) : ∃ x ∈ xs, S x y := by
  induction h with
  | nil => exact absurd hy List.not_mem_nil
  | cons hxy _ ih =>
    rcases List.mem_cons.mp hy with rfl | hy
    · exact ⟨_, List.mem_cons_self, hxy⟩
    · obtain ⟨x, hx, hxy⟩ := ih hy
      exact ⟨x, List.mem_cons_of_mem _ hx, hxy⟩

/-- No string opens a group. -/
theorem StaysText.not_opening (h : StaysText pre q c c' post)
    (hmark : TokenPlace.free.mark (textTokens (withQuoted pre q c post)) = es.marked)
    {m : Token × TokenRole} (hm : m ∈ es.marked) (htype : m.1.type = .string) :
    m.2 ≠ .opening := by
  intro hopening
  rw [← hmark] at hm
  obtain ⟨us, vs, htokens, hrole⟩ := exists_of_mem_mark hm
  obtain ⟨hnamed, hbrace⟩ := named_of_opening (hrole.symm.trans hopening)
  have hno := h.braces us m.1 (vs ++ [_])
    (by rw [tokensAt_eq_textTokens, htokens, List.append_assoc, List.cons_append]) htype hnamed
  rw [hno] at hbrace
  exact Bool.false_ne_true hbrace

/-- The tokens fit their roles as they did. -/
theorem StaysText.fits (h : StaysText pre q c c' post)
    (htokens : textTokens (withQuoted pre q c post) = es.tokens)
    (hvalid : es.Valid (eofToken ((⟨1, 0⟩ : Position).pastAll (texts (withQuoted pre q c post)))))
    (halike : es.Alike (fun _ => Corresponds (quotedToken pre q c) (quotedToken pre q c')) es') :
    ∀ m ∈ es'.marked, m.1.Fits m.2 := by
  obtain ⟨hfits, hmark, _⟩ := roles_of_valid htokens hvalid
  intro m' hm'
  obtain ⟨m, hm, hrole, htype, hcontent⟩ := exists_of_mem_right halike.marked hm'
  rw [← hrole]
  rcases hcontent with hcontent | ⟨heq, heq'⟩
  · exact fits_congr htype hcontent (hfits m hm)
  · have hstring : m.1.type = .string := by rw [heq]; rfl
    exact fits_string hstring (htype.trans hstring) (h.not_opening hmark hm hstring) (hfits m hm)

/-- The entries with the new content are valid, too. -/
theorem StaysText.valid (h : StaysText pre q c c' post)
    (htokens : textTokens (withQuoted pre q c post) = es.tokens)
    (hvalid : es.Valid (eofToken ((⟨1, 0⟩ : Position).pastAll (texts (withQuoted pre q c post)))))
    (halike : es.Alike (fun _ => Corresponds (quotedToken pre q c) (quotedToken pre q c')) es')
    (htokens' : es'.tokens = textTokens (withQuoted pre q c' post)) :
    es'.Valid (eofToken ((⟨1, 0⟩ : Position).pastAll (texts (withQuoted pre q c' post)))) := by
  refine (Entries.valid_iff ⟨rfl, rfl⟩).mpr ⟨h.fits htokens hvalid halike, ?_⟩
  rw [htokens', ← tokensAt_eq_textTokens, h.roles_eq, (roles_of_valid htokens hvalid).2.2,
    halike.map_snd]

end Replacing

section Punctuation

variable {ps : List Piece}

theorem Lexed.valid_of_mem (h : Lexed ps rest) : ∀ p ∈ ps, p.Valid := by
  induction h with
  | done => exact fun p hp => absurd hp List.not_mem_nil
  | cons valid _ _ ih => exact List.forall_mem_cons.mpr ⟨valid, ih⟩

theorem isChar_ofList_cons {type : TokenType} {pos : Position} {c d : Char} {cs : List Char}
    (h : Token.isChar ⟨type, pos, String.ofList (c :: cs)⟩ d = true) : c = d := by
  cases cs with
  | nil => simpa [Token.isChar] using h
  | cons x cs => exact (by simpa [Token.isChar] using h : c = d ∧ x = '\x00').1

/-- A token in one of the other roles is a character of its own, unless it is quoted. -/
theorem exists_mark_of_fits {p : Piece} {t : Token} {r : TokenRole} (hvalid : p.Valid)
    (htoken : p.token? = some (t.type, t.content)) (hclosed : ∀ q cs, p ≠ .unclosed q cs)
    (hstring : t.type = .string → r ≠ .opening) (hfits : t.Fits r)
    (hr : r = .equals ∨ r = .opening ∨ r = .closing) : ∃ c, p = .mark c := by
  obtain ⟨type, pos, content⟩ := t
  cases p with
  | blank | comment => cases htoken
  | mark c => exact ⟨c, rfl⟩
  | unclosed q cs => exact absurd rfl (hclosed q cs)
  | quoted q cs =>
    cases htoken
    rcases hr with rfl | rfl | rfl
    · exact absurd hfits.1 (by simp [Token.isName])
    · exact absurd rfl (hstring rfl)
    · exact absurd hfits.1 (by simp [Token.isName])
  | word c cs =>
    cases htoken
    rcases hr with rfl | rfl | rfl
    · exact absurd hfits.1 (by simp [Token.isName])
    · have hc := isChar_ofList_cons hfits
      rw [hc] at hvalid
      exact absurd hvalid.1 (by decide)
    · exact absurd hfits.1 (by simp [Token.isName])
  | number c cs =>
    cases htoken
    have hdigit := hvalid.1
    rcases hr with rfl | rfl | rfl
    · have hlist : (String.ofList (c :: cs)).toList = "=".toList := congrArg String.toList hfits.2
      rw [String.toList_ofList] at hlist
      have hc : c = '=' := (List.cons.inj hlist).1
      rw [hc] at hdigit
      exact absurd hdigit (by decide)
    · rw [isChar_ofList_cons hfits] at hdigit
      exact absurd hdigit (by decide)
    · rw [isChar_ofList_cons hfits.2] at hdigit
      exact absurd hdigit (by decide)

/-- The tokens of the pieces stand beside the roles in which the entries hold them. -/
theorem mem_marked_of_mem_zip (htokens : textTokens ps = es.tokens)
    {m : (Piece × Token) × TokenRole}
    (h : m ∈ (pieceTokens ⟨1, 0⟩ ps).zip (es.marked.map Prod.snd)) :
    (m.1.2, m.2) ∈ es.marked := by
  have hzip : es.marked = (textTokens ps).zip (es.marked.map Prod.snd) := by
    rw [htokens, ← es.map_fst_marked, ← List.unzip_fst, ← List.unzip_snd, List.zip_unzip]
  rw [hzip, textTokens, List.zip_map_left]
  exact List.mem_map.mpr ⟨m, h, rfl⟩

theorem StaysText.punctuationUnquoted (h : StaysText pre q c c' post)
    (hlexed : Lexed (withQuoted pre q c post) rest)
    (htokens : textTokens (withQuoted pre q c post) = es.tokens)
    (hvalid : es.Valid
      (eofToken ((⟨1, 0⟩ : Position).pastAll (texts (withQuoted pre q c post))))) :
    PunctuationUnquoted (withQuoted pre q c post) es := by
  obtain ⟨hfits, hmark, _⟩ := roles_of_valid htokens hvalid
  intro m hm hr
  have hmarked := mem_marked_of_mem_zip htokens hm
  obtain ⟨hmem, htoken⟩ := token?_of_mem (List.of_mem_zip hm).1
  exact exists_mark_of_fits (hlexed.valid_of_mem _ hmem) htoken (h.closed _ hmem)
    (fun hstring => h.not_opening hmark hmarked hstring) (hfits _ hmarked) hr

end Punctuation

section Outcome

theorem quoted_valid (hlexed : Lexed (withQuoted pre q c post) rest) (hq : q ∉ c')
    (hcontent : eofChar ∉ c') : (Piece.quoted q c').Valid := by
  have hvalid := hlexed.valid_of_mem (.quoted q c) (by simp [withQuoted])
  refine ⟨hvalid.1, fun d hd => ?_⟩
  have hne : d ≠ eofChar := fun h => hcontent (h ▸ hd)
  have hne' : d ≠ q := fun h => hq (h ▸ hd)
  simp [inQuotes, hne, hne']

/-- A text that is written with some entries is read as them. -/
theorem WrittenAs.givenBy {text : List Char} (h : WrittenAs text es)
    (hsize : text.length < 2 ^ 32) : GivenBy text es := by
  rcases h.build_duplicateOr hsize with ⟨e, he, hduplicate⟩ | hbuild
  · exact .inr ⟨e, he, hduplicate, h.parseConfig_error_iff.mpr he⟩
  · obtain ⟨l, hl⟩ := h.parseConfig_ok_iff.mpr hbuild
    exact .inl ⟨_, l, hbuild, hl⟩

/-- With a content that stays a text, only the content changes. -/
theorem StaysText.givenBy (h : StaysText pre q c c' post)
    (hlexed : Lexed (withQuoted pre q c post) rest) (hq : q ∉ c')
    (hsize : (texts (withQuoted pre q c' post) ++ rest).length < 2 ^ 32)
    (htokens : textTokens (withQuoted pre q c post) = es.tokens)
    (hvalid : es.Valid (eofToken ((⟨1, 0⟩ : Position).pastAll (texts (withQuoted pre q c post)))))
    (halike : es.Alike (fun _ => Corresponds (quotedToken pre q c) (quotedToken pre q c')) es')
    (htokens' : es'.tokens = textTokens (withQuoted pre q c' post)) :
    GivenBy (texts (withQuoted pre q c' post) ++ rest) es' := by
  have hlexed' := lexed_withQuoted hlexed (quoted_valid hlexed hq h.content)
  have hvalid' := h.valid htokens hvalid halike htokens'
  exact ((writtenAs_iff hlexed').mpr ⟨htokens'.symm, hvalid'⟩).givenBy hsize

end Outcome

end Texts

end Ctguard
