import Ctguard.QuotedTexts

/-!
# Counting the tokens in their roles

Valid entries open as many groups as they close, and what is built from them has as many values as
there are tokens in this role. The tokens that close groups, and those that open them without being
quoted, do not depend on how the text is read. A value that joins the others of its line makes one
more of them.
-/

namespace Ctguard

section Counts

variable {es : Entries} {cg g : ConfigGroup} {after : Token}

def roleCount (r : TokenRole) (ms : List (Token × TokenRole)) : ℕ :=
  ms.countP fun m => m.2 = r

@[simp] theorem roleCount_append (r : TokenRole) (ms ns : List (Token × TokenRole)) :
    roleCount r (ms ++ ns) = roleCount r ms + roleCount r ns := List.countP_append

theorem roleCount_cons (r r' : TokenRole) (t : Token) (ms : List (Token × TokenRole)) :
    roleCount r ((t, r') :: ms) = roleCount r ms + if r' = r then 1 else 0 := by
  simp [roleCount, List.countP_cons]

theorem roleCount_map (r r' : TokenRole) (ts : List Token) :
    roleCount r (ts.map (·, r')) = if r' = r then ts.length else 0 := by
  induction ts with
  | nil => simp [roleCount]
  | cons t ts ih =>
    rw [List.map_cons, roleCount_cons, ih]
    split
    · rfl
    · rfl

theorem roleCount_congr {r : TokenRole} {ms ns : List (Token × TokenRole)}
    (h : ms.map Prod.snd = ns.map Prod.snd) : roleCount r ms = roleCount r ns := by
  have hcount (ms : List (Token × TokenRole)) :
      roleCount r ms = (ms.map Prod.snd).countP fun s => s = r := by
    rw [roleCount, List.countP_map]
    rfl
  rw [hcount, hcount, h]

/-- Each group that is opened is closed. -/
theorem roleCount_opening (es : Entries) :
    roleCount .opening es.marked = roleCount .closing es.marked := by
  induction es with
  | nil => rfl
  | option name equals value more rest ih =>
    simp [Entries.marked, roleCount_cons, roleCount_map, ih]
  | plain name keyword rest ih => simp [Entries.marked, roleCount_cons, ih]
  | braced name keyword opening body closing rest ihBody ihRest =>
    simp [Entries.marked, roleCount_cons, roleCount_map, ihBody, ihRest]
    omega

/-- The values of the options of a node. -/
def headValues (b : ConfigHead) : List String := b.options.flatMap (·.options)

/-- The values that are written in a group. -/
def allValues (g : ConfigGroup) : List String :=
  headValues g.root ++ (RoseTree.forestNodes g.children).flatMap fun node => headValues node.root

theorem length_allValues_insert {b : ConfigHead} {front back : List ConfigGroup} :
    (allValues ⟨b, front ++ g :: back⟩).length =
      (allValues ⟨b, front ++ back⟩).length + (allValues g).length := by
  obtain ⟨b', cs⟩ := g
  simp only [allValues, RoseTree.forestNodes_append, RoseTree.forestNodes_cons,
    List.flatMap_append, List.flatMap_cons, List.length_append]
  omega

theorem length_allValues_empty (name keyword : String) (pos : Position) :
    (allValues (.empty name keyword pos)).length = 0 := rfl

/-- There are as many values as tokens in this role. -/
theorem length_allValues_build (h : es.build cg = .ok g) :
    (allValues g).length = (allValues cg).length + roleCount .value es.marked := by
  induction es generalizing cg g with
  | nil => cases h; rfl
  | option name equals value more rest ih =>
    rw [ih (build_option_ok h).2]
    simp [allValues, headValues, Entries.marked, roleCount_cons, roleCount_map]
    omega
  | plain name keyword rest ih =>
    obtain ⟨front, back, hsplit, hrest⟩ := build_plain_ok h
    obtain ⟨b, gs⟩ := cg
    simp only [] at hsplit
    rw [ih hrest, length_allValues_insert, length_allValues_empty, hsplit]
    simp [Entries.marked, roleCount_cons]
  | braced name keyword opening body closing rest ihBody ihRest =>
    obtain ⟨b, front, back, -, hbody, hsplit, hrest⟩ := build_braced_ok h
    obtain ⟨b', gs⟩ := cg
    simp only [] at hsplit
    rw [ihRest hrest, length_allValues_insert, ihBody hbody, length_allValues_empty, hsplit]
    simp [Entries.marked, roleCount_cons, roleCount_map]
    omega

end Counts

section Lexical

variable {t : Token} {c d : Char}

/-- A number starts with a digit. -/
def Lexical (t : Token) : Prop := t.type = .integer → ∀ c, t.isChar c = true → c.isDigit = true

theorem isChar_of_equals (h : t.content = "=") : t.isChar '=' = true := by
  simp [Token.isChar, h]

theorem Lexical.not_value (h : Lexical t) (hname : t.isName = false) (hchar : t.isChar c = true)
    (hdigit : c.isDigit = false) : t.isValue = false := by
  by_contra hvalue
  have htype : t.type = .integer := by simpa [Token.isValue, hname] using hvalue
  rw [h htype c hchar] at hdigit
  cases hdigit

theorem isChar_inj (h : t.isChar c = true) (h' : t.isChar d = true) : c = d := by
  obtain ⟨type, pos, content⟩ := t
  rw [← String.ofList_toList (s := content)] at h h'
  cases hcs : content.toList with
  | nil => simp [Token.isChar, hcs] at h
  | cons x xs =>
    rw [hcs] at h h'
    exact (isChar_ofList_cons h).symm.trans (isChar_ofList_cons h')

/-- A token that is no name and stands for a closing brace closes a group. -/
theorem closing_iff {r : TokenRole} (hlexical : Lexical t) (hfits : t.Fits r) :
    r = .closing ↔ t.isName = false ∧ t.isChar '}' = true := by
  constructor
  · rintro rfl
    exact hfits
  · rintro ⟨hname, hbrace⟩
    cases r with
    | word => exact absurd (hname.symm.trans hfits) (by decide)
    | equals => exact absurd (isChar_inj hbrace (isChar_of_equals hfits.2)) (by decide)
    | value => exact absurd ((hlexical.not_value hname hbrace rfl).symm.trans hfits) (by decide)
    | opening => exact absurd (isChar_inj hbrace hfits) (by decide)
    | closing => rfl

/-- A token that is no name and stands for an opening brace opens a group. -/
theorem opening_of_isChar {r : TokenRole} (hlexical : Lexical t) (hfits : t.Fits r)
    (hname : t.isName = false) (hbrace : t.isChar '{' = true) : r = .opening := by
  cases r with
  | word => exact absurd (hname.symm.trans hfits) (by decide)
  | equals => exact absurd (isChar_inj hbrace (isChar_of_equals hfits.2)) (by decide)
  | value => exact absurd ((hlexical.not_value hname hbrace rfl).symm.trans hfits) (by decide)
  | opening => rfl
  | closing => exact absurd (isChar_inj hbrace hfits.2) (by decide)

theorem lexical_of_piece {p : Piece} (hvalid : p.Valid)
    (htoken : p.token? = some (t.type, t.content)) : Lexical t := by
  intro htype c hc
  obtain ⟨type, pos, content⟩ := t
  cases p with
  | number d cs =>
    cases htoken
    rw [← isChar_ofList_cons hc]
    exact hvalid.1
  | blank | comment | quoted | unclosed | word | mark => cases htoken <;> cases htype

theorem lexical_of_mem {ps : List Piece} {rest : List Char} (h : Lexed ps rest)
    (ht : t ∈ textTokens ps) : Lexical t := by
  obtain ⟨m, hm, rfl⟩ := List.mem_map.mp ht
  obtain ⟨hmem, htoken⟩ := token?_of_mem hm
  exact lexical_of_piece (h.valid_of_mem _ hmem) htoken

end Lexical

section Braces

variable {ms : List (Token × TokenRole)} {m : Token × TokenRole}

/-- Braces that are no names. -/
def Token.opens (t : Token) : Bool := !t.isName && t.isChar '{'

def Token.closes (t : Token) : Bool := !t.isName && t.isChar '}'

theorem countP_lt_countP {α : Type} {p q : α → Bool} {xs : List α} {x : α}
    (h : ∀ y ∈ xs, p y = true → q y = true) (hx : x ∈ xs) (hp : p x = false) (hq : q x = true) :
    xs.countP p < xs.countP q := by
  obtain ⟨front, back, rfl⟩ := List.append_of_mem hx
  have hfront := List.countP_mono_left fun y hy => h y (List.mem_append_left _ hy)
  have hback := List.countP_mono_left
    fun y hy => h y (List.mem_append_right _ (List.mem_cons_of_mem _ hy))
  simp only [List.countP_append, List.countP_cons, hp, hq]
  simp
  omega

theorem roleCount_closing_eq (h : ∀ m ∈ ms, m.1.Fits m.2 ∧ Lexical m.1) :
    roleCount .closing ms = (ms.map Prod.fst).countP Token.closes := by
  rw [roleCount, List.countP_map]
  refine List.countP_congr fun m hm => ?_
  obtain ⟨hfits, hlexical⟩ := h m hm
  simp [Token.closes, closing_iff hlexical hfits]

theorem roleCount_opening_eq (h : ∀ m ∈ ms, m.1.Fits m.2 ∧ Lexical m.1)
    (hno : ∀ m ∈ ms, m.2 = .opening → m.1.isName = false) :
    roleCount .opening ms = (ms.map Prod.fst).countP Token.opens := by
  rw [roleCount, List.countP_map]
  refine List.countP_congr fun m hm => ?_
  obtain ⟨hfits, hlexical⟩ := h m hm
  simp only [decide_eq_true_eq, Function.comp_apply, Token.opens, Bool.and_eq_true,
    Bool.not_eq_true']
  constructor
  · intro hrole
    have hbrace : m.1.isChar '{' = true := by rwa [hrole] at hfits
    exact ⟨hno m hm hrole, hbrace⟩
  · rintro ⟨hname, hbrace⟩
    exact opening_of_isChar hlexical hfits hname hbrace

/-- A name that opens a group counts in addition. -/
theorem countP_opens_lt (h : ∀ m ∈ ms, m.1.Fits m.2 ∧ Lexical m.1) (hm : m ∈ ms)
    (hrole : m.2 = .opening) (hname : m.1.isName = true) :
    (ms.map Prod.fst).countP Token.opens < roleCount .opening ms := by
  rw [roleCount, List.countP_map]
  refine countP_lt_countP (fun x hx hopens => ?_) hm ?_ (by simpa using hrole)
  · obtain ⟨hfits, hlexical⟩ := h x hx
    simp only [Function.comp_apply, Token.opens, Bool.and_eq_true, Bool.not_eq_true'] at hopens
    simpa using opening_of_isChar hlexical hfits hopens.1 hopens.2
  · simp [Token.opens, hname]

theorem countP_corresponds {t₀ t₀' : Token} {ts ts' : List Token} {p : Token → Bool}
    (hsame : ∀ t t', t'.type = t.type → t'.content = t.content → p t' = p t)
    (hold : p t₀ = false) (hnew : p t₀' = false)
    (h : List.Forall₂ (Corresponds t₀ t₀') ts ts') : ts'.countP p = ts.countP p := by
  induction h with
  | nil => rfl
  | cons ht _ ih =>
    rw [List.countP_cons, List.countP_cons, ih]
    rcases ht with ⟨htype, hcontent | ⟨rfl, rfl⟩⟩
    · rw [hsame _ _ htype hcontent]
    · rw [hold, hnew]

end Braces

namespace TokenPlace

variable {n : UInt32} {s s' : TokenPlace} {t t' : Token} {ts ts' : List Token}

/-- Where values are taken in one text, they are taken in the other. -/
def Follows (n : UInt32) (s s' : TokenPlace) : Prop :=
  (s = .assigned → s' = .assigned) ∧ ∀ number, s = .line number → s' = .line (number + n)

theorem takes_follows (h : Follows n s s') (ht : Shifted n t t') (htakes : s.takes t = true) :
    s'.takes t' = true := by
  rw [← takes_shift ht s] at htakes
  cases s with
  | free | named => simp [shift, takes] at htakes
  | assigned =>
    rw [h.1 rfl]
    exact htakes
  | line number =>
    rw [h.2 number rfl]
    exact htakes

/-- What is no value assigns in both texts, or in none. -/
theorem follows_next (hlexical : Lexical t) (ht : Shifted n t t') (htakes : s.takes t = false) :
    Follows n (s.next t) (s'.next t') := by
  by_cases hequals : s.role t = .equals
  · have hcontent : t.isName = false ∧ t.content = "=" := by
      rw [role, htakes] at hequals
      grind
    have hvalue := hlexical.not_value hcontent.1 (isChar_of_equals hcontent.2) rfl
    have htakes' : s'.takes t' = false := by
      rw [takes, isValue_of_type ht.type, hvalue, Bool.false_and]
    have hname : t'.isName = false := by rw [Token.isName, ht.type]; exact hcontent.1
    have hbrace : t'.isChar '{' = false := by simp [Token.isChar, ht.content, hcontent.2]
    have hrole : s'.role t' = .equals := by
      simp [role, htakes', hbrace, hname, ht.content, hcontent.2]
    rw [next_of_role hequals, next_of_role hrole]
    exact ⟨id, fun _ h => TokenPlace.noConfusion h⟩
  · have hnext : s.next t = .named ∨ s.next t = .free := by
      rw [next]
      cases hrole : s.role t with
      | word => exact .inl rfl
      | equals => exact absurd hrole hequals
      | value =>
        rw [Entries.takes_of_role hrole] at htakes
        cases htakes
      | opening => exact .inr rfl
      | closing => exact .inr rfl
    rcases hnext with hnext | hnext
    · rw [hnext]
      exact ⟨fun h => TokenPlace.noConfusion h, fun _ h => TokenPlace.noConfusion h⟩
    · rw [hnext]
      exact ⟨fun h => TokenPlace.noConfusion h, fun _ h => TokenPlace.noConfusion h⟩

theorem roleCount_value_of_not_takes (h : s.takes t = false) (ts : List Token) :
    roleCount .value (s.mark (t :: ts)) = roleCount .value ((s.next t).mark ts) := by
  have hrole : s.role t ≠ .value := fun hvalue => by
    rw [Entries.takes_of_role hvalue] at h
    cases h
  rw [mark, roleCount_cons, if_neg hrole, Nat.add_zero]

theorem roleCount_value_of_takes (h : s.takes t = true) (ts : List Token) :
    roleCount .value (s.mark (t :: ts)) =
      roleCount .value ((line t.position.lineNumber).mark ts) + 1 := by
  obtain ⟨hrole, hnext⟩ := role_value h
  rw [mark, roleCount_cons, if_pos hrole, hnext]

/-- The same tokens some lines further are values there, if they are here. -/
theorem roleCount_value_le (hts : List.Forall₂ (Shifted n) ts ts') (hlexical : ∀ t ∈ ts, Lexical t)
    (h : Follows n s s') :
    roleCount .value (s.mark ts) ≤ roleCount .value (s'.mark ts') := by
  induction hts generalizing s s' with
  | nil => exact Nat.le_refl _
  | @cons t t' us us' ht _ ih =>
    obtain ⟨hfirst, hrest⟩ := List.forall_mem_cons.mp hlexical
    cases htakes : s.takes t with
    | true =>
      rw [roleCount_value_of_takes htakes, roleCount_value_of_takes (takes_follows h ht htakes)]
      have hfollows : Follows n (.line t.position.lineNumber) (.line t'.position.lineNumber) := by
        refine ⟨fun h => (nomatch h), fun number hnumber => ?_⟩
        rw [← line.inj hnumber, ht.line]
      exact Nat.add_le_add_right (ih hrest hfollows) 1
    | false =>
      rw [roleCount_value_of_not_takes htakes]
      have hle := ih hrest (@follows_next n s s' t t' hfirst ht htakes)
      cases htakes' : s'.takes t' with
      | true =>
        rw [roleCount_value_of_takes htakes']
        rw [(role_value htakes').2] at hle
        exact hle.trans (Nat.le_succ _)
      | false =>
        rw [roleCount_value_of_not_takes htakes']
        exact hle

/-- A token that is a value only there makes one more of them. -/
theorem roleCount_value_lt (ht : Shifted n t t') (hts : List.Forall₂ (Shifted n) ts ts')
    (hlexical : ∀ u ∈ t :: ts, Lexical u) (htakes : s.takes t = false)
    (htakes' : s'.takes t' = true) :
    roleCount .value (s.mark (t :: ts)) < roleCount .value (s'.mark (t' :: ts')) := by
  obtain ⟨hfirst, hrest⟩ := List.forall_mem_cons.mp hlexical
  have hfollows := @follows_next n s s' t t' hfirst ht htakes
  rw [(role_value htakes').2] at hfollows
  rw [roleCount_value_of_not_takes htakes, roleCount_value_of_takes htakes']
  exact Nat.lt_succ_of_le (roleCount_value_le hts hrest hfollows)

end TokenPlace

end Ctguard
