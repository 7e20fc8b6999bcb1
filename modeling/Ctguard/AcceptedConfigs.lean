import Ctguard.ConfigPositions

/-!
# Accepted configurations

A text is accepted when it is written with the tokens of some entries and the group can be built
from them. All of the text is read if no byte is taken for its end; every group that is written is
kept, in its place; and a group is not written twice as long as the second has braces.
-/

namespace Ctguard

/-- The tokens of the text are those of the entries, and the end of the input. -/
def WrittenAs (text : List Char) (es : Entries) : Prop :=
  ∃ after : Token, after.type = .eof ∧ tokensOf text = es.tokens ++ [after] ∧ es.Valid after

section Written

variable {text : List Char} {es : Entries} {g : ConfigGroup} {l : Lexer}

theorem WrittenAs.parses (h : WrittenAs text es) {ps : List Piece} {rest : List Char}
    (hlexed : Lexed ps rest) (htext : texts ps ++ rest = text) :
    ∃ t : Token, Parses false globalGroup (tokensAt ⟨1, 0⟩ ps)
      ((es.build globalGroup).map fun g => (g, [t])) := by
  obtain ⟨after, htype, htokens, hvalid⟩ := h
  rw [← htext, tokensOf_eq hlexed] at htokens
  refine ⟨after, ?_⟩
  have hended := ended_tokensAt ⟨1, 0⟩ ps
  rw [htokens] at hended ⊢
  refine hvalid.parses hended ?_
  cases es.build globalGroup with
  | error e => rfl
  | ok g => exact .closing (.eof htype)

theorem WrittenAs.parseConfig_ok_iff (h : WrittenAs text es) :
    (∃ l, parseConfig text = some (.ok (g, l))) ↔ es.build globalGroup = .ok g := by
  obtain ⟨ps, rest, hlexed, rfl⟩ := exists_lexed text
  obtain ⟨t, hparses⟩ := h.parses hlexed rfl
  rw [Ctguard.parseConfig_ok_iff hlexed]
  constructor
  · rintro ⟨ts, hts⟩
    have heq := hparses.unique (ended_tokensAt _ _) hts
    cases hbuild : es.build globalGroup with
    | error e => rw [hbuild] at heq; cases heq
    | ok g' => rw [hbuild] at heq; cases heq; rfl
  · intro hbuild
    rw [hbuild] at hparses
    exact ⟨[t], hparses⟩

theorem WrittenAs.parseConfig_error_iff (h : WrittenAs text es) {e : ParseException} :
    parseConfig text = some (.error e) ↔ es.build globalGroup = .error e := by
  obtain ⟨ps, rest, hlexed, rfl⟩ := exists_lexed text
  obtain ⟨t, hparses⟩ := h.parses hlexed rfl
  rw [Ctguard.parseConfig_error_iff hlexed]
  constructor
  · intro he
    have heq := hparses.unique (ended_tokensAt _ _) he
    cases hbuild : es.build globalGroup with
    | error e' => rw [hbuild] at heq; cases heq; rfl
    | ok g => rw [hbuild] at heq; cases heq
  · intro hbuild
    rw [hbuild] at hparses
    exact hparses

/-- What is accepted is written with some entries, and built from them. -/
theorem exists_writtenAs (h : parseConfig text = some (.ok (g, l))) :
    ∃ es, WrittenAs text es ∧ es.build globalGroup = .ok g := by
  obtain ⟨ps, rest, hlexed, rfl⟩ := exists_lexed text
  obtain ⟨ts, hts⟩ := (Ctguard.parseConfig_ok_iff hlexed).mp ⟨l, h⟩
  obtain ⟨es, after, behind, htokens, hvalid, hbuild, hcloses⟩ := hts.exists_entries
  cases hcloses with
  | eof type =>
    refine ⟨es, ⟨after, type, ?_, hvalid⟩, hbuild⟩
    rw [tokensOf_eq hlexed, htokens]

end Written

section ReadToEnd

/-- Every character is part of a blank, a comment or a token, and the tokens are those of the
entries that the group is built from. -/
def ReadToEnd (text : List Char) (g : ConfigGroup) (l : Lexer) : Prop :=
  l.unread = [] ∧ ∃ ps es, Lexed ps [] ∧ texts ps = text ∧ tokensAt ⟨1, 0⟩ ps = tokensOf text ∧
    WrittenAs text es ∧ es.build globalGroup = .ok g

/-- An accepted text is read to its end unless it contains the byte that is taken for it. -/
theorem readToEnd_iff {text : List Char} {g : ConfigGroup} {l : Lexer}
    (h : parseConfig text = some (.ok (g, l))) : ReadToEnd text g l ↔ eofChar ∉ text := by
  obtain ⟨es, hwritten, hbuild⟩ := exists_writtenAs h
  constructor
  · rintro ⟨_, ps, _, hlexed, rfl, _⟩
    exact hlexed.eofChar_notMem
  · intro hnot
    obtain ⟨ps, rest, hlexed, rfl⟩ := exists_lexed text
    have hrest : rest = [] := by
      cases rest with
      | nil => rfl
      | cons c rest =>
        have hc := hlexed.rest_head c rfl
        exact absurd (List.mem_append_right _ (hc ▸ List.mem_cons_self)) hnot
    subst hrest
    have htokens := tokensOf_eq hlexed
    have hunread := unread_of_parseConfig hlexed h
    rw [List.append_nil] at hwritten htokens ⊢
    exact ⟨hunread, ps, es, hlexed, rfl, htokens.symm, hwritten, hbuild⟩

theorem exists_of_isOk {text : List Char} (h : (parseConfig text).any Except.isOk = true) :
    ∃ g l, parseConfig text = some (.ok (g, l)) := by
  rw [Option.any_eq_true] at h
  obtain ⟨r, hr, hok⟩ := h
  cases r with
  | error e => cases hok
  | ok r => exact ⟨r.1, r.2, hr⟩

/-- A text in which the second option is not read. -/
theorem readToEnd_iff_hiddenOption :
    ∃ g l, parseConfig "a = 1\n\xff\nb = 2".toList = some (.ok (g, l)) ∧
      (ReadToEnd "a = 1\n\xff\nb = 2".toList g l ↔ eofChar ∉ "a = 1\n\xff\nb = 2".toList) := by
  obtain ⟨g, l, h⟩ := @exists_of_isOk "a = 1\n\xff\nb = 2".toList (by decide +kernel)
  exact ⟨g, l, h, readToEnd_iff h⟩

theorem hiddenOption_not_readToEnd :
    ∃ g l, parseConfig "a = 1\n\xff\nb = 2".toList = some (.ok (g, l)) ∧ l.unread ≠ [] ∧
      ¬ ReadToEnd "a = 1\n\xff\nb = 2".toList g l := by
  have hunread : (parseConfig "a = 1\n\xff\nb = 2".toList).any
      (fun r => r.toOption.any fun r => r.2.unread = "\xff\nb = 2".toList) = true := by
    decide +kernel
  rw [Option.any_eq_true] at hunread
  obtain ⟨r, hr, hany⟩ := hunread
  cases r with
  | error e => cases hany
  | ok r =>
    have hne : r.2.unread ≠ [] := by
      rw [of_decide_eq_true hany]
      decide
    exact ⟨r.1, r.2, hr, hne, fun h => hne h.1⟩

end ReadToEnd

section Kept

variable {text : List Char} {es : Entries} {g : ConfigGroup} {l : Lexer} {e : ParseException}

theorem tokensOf_rising (hsize : text.length < 2 ^ 32) : Rising (tokensOf text) := by
  obtain ⟨ps, rest, hlexed, rfl⟩ := exists_lexed text
  rw [tokensOf_eq hlexed]
  rw [List.length_append] at hsize
  refine (rising_tokensAt hlexed (n := 0) ⟨?_, ?_⟩ (by omega)).1
  · decide
  · decide

/-- The group that is built from the entries of a text holds them in their order. -/
theorem WrittenAs.build_duplicateOr (h : WrittenAs text es) (hsize : text.length < 2 ^ 32) :
    DuplicateOr (es.build globalGroup) (es.addTo globalGroup) := by
  obtain ⟨after, _, htokens, _⟩ := h
  have hrising := tokensOf_rising hsize
  rw [Rising, htokens, List.dropLast_concat] at hrising
  exact es.build_rising hrising fun x hx => absurd hx List.not_mem_nil

end Kept

section Twice

/-- Two groups that do not configure one thing twice. -/
def NotTwice (a b : ConfigGroup) : Prop :=
  ¬ (a.root.name = b.root.name ∧ a.root.keyword = b.root.keyword ∧ a.root.keyword ≠ "")

theorem NotTwice.symm {a b : ConfigGroup} (h : NotTwice a b) : NotTwice b a :=
  fun ⟨hname, hkeyword, hne⟩ => h ⟨hname.symm, hkeyword.symm, hkeyword ▸ hne⟩

/-- In no group of a forest, nor among its trees, anything is configured twice. -/
def NoneTwice (gs : List ConfigGroup) : Prop :=
  gs.Pairwise NotTwice ∧ ∀ node ∈ RoseTree.forestNodes gs, node.children.Pairwise NotTwice

def heading (g : ConfigGroup) : String × String := (g.root.name, g.root.keyword)

namespace Entries

/-- No group without braces is written behind one with its name and its keyword, which is not
empty. -/
def PlainNew : Entries → List (String × String) → Prop
  | nil, _ => True
  | option _ _ _ _ rest, seen => rest.PlainNew seen
  | plain name keyword rest, seen =>
    ((name.content, keyword.content) ∈ seen → keyword.content = "") ∧
      rest.PlainNew ((name.content, keyword.content) :: seen)
  | braced name keyword _ body _ rest, seen =>
    body.PlainNew [] ∧ rest.PlainNew ((name.content, keywordContent keyword) :: seen)

theorem plainNew_congr {es : Entries} {seen seen' : List (String × String)}
    (h : ∀ x, x ∈ seen ↔ x ∈ seen') : es.PlainNew seen ↔ es.PlainNew seen' := by
  induction es generalizing seen seen' with
  | nil => exact Iff.rfl
  | option name equals value more rest ih => exact ih h
  | plain name keyword rest ih =>
    have hrest := @ih ((name.content, keyword.content) :: seen)
      ((name.content, keyword.content) :: seen') (fun x => by simp only [List.mem_cons, h])
    rw [PlainNew, PlainNew, h, hrest]
  | braced name keyword opening body closing rest _ ih =>
    have hrest := @ih ((name.content, keywordContent keyword) :: seen)
      ((name.content, keywordContent keyword) :: seen')
      (fun x => by simp only [List.mem_cons, h])
    rw [PlainNew, PlainNew, hrest]

end Entries

variable {text : List Char} {es : Entries} {cg g : ConfigGroup} {l : Lexer}

theorem noneTwice_insert {front back : List ConfigGroup} :
    NoneTwice (front ++ g :: back) ↔
      NoneTwice (front ++ back) ∧ NoneTwice g.children ∧ ∀ x ∈ front ++ back, NotTwice g x := by
  have hnodes : (∀ node ∈ RoseTree.forestNodes (front ++ g :: back),
      node.children.Pairwise NotTwice) ↔
      (∀ node ∈ RoseTree.forestNodes (front ++ back), node.children.Pairwise NotTwice) ∧
        g.children.Pairwise NotTwice ∧
          ∀ node ∈ RoseTree.forestNodes g.children, node.children.Pairwise NotTwice := by
    simp only [RoseTree.mem_forestNodes_insert, or_imp, forall_and, forall_eq]
  rw [NoneTwice, NoneTwice, NoneTwice, hnodes, List.pairwise_middle fun {_ _} h => h.symm,
    List.pairwise_cons]
  tauto

theorem mem_map_heading_insert {front back : List ConfigGroup} (x : String × String) :
    x ∈ (front ++ g :: back).map heading ↔ x ∈ heading g :: (front ++ back).map heading := by
  simp only [List.map_append, List.map_cons, List.mem_append, List.mem_cons]
  tauto

/-- A group is like none of the others if its name and its keyword are new, or it has none. -/
theorem notTwice_iff {gs : List ConfigGroup} :
    (∀ x ∈ gs, NotTwice g x) ↔ (heading g ∈ gs.map heading → g.root.keyword = "") := by
  constructor
  · intro h hmem
    obtain ⟨x, hx, heq⟩ := List.mem_map.mp hmem
    obtain ⟨hname, hkeyword⟩ := Prod.mk.inj heq
    by_contra hne
    exact h x hx ⟨hname.symm, hkeyword.symm, hne⟩
  · rintro h x hx ⟨hname, hkeyword, hne⟩
    exact hne (h (List.mem_map.mpr ⟨x, hx, Prod.ext hname.symm hkeyword.symm⟩))

/-- The keyword of a group with braces is compared with those of the other groups. -/
theorem notTwice_of_subgroup {keyword : Option Token}
    (hkeyword : g.root.keyword = keywordContent keyword)
    (h : ∀ k ∈ keyword, cg.subgroup? k.content = none) : ∀ x ∈ cg.children, NotTwice g x := by
  rintro x hx ⟨_, heq, hne⟩
  cases keyword with
  | none => exact hne hkeyword
  | some k =>
    have hnone := List.find?_eq_none.mp (h k rfl) x hx
    exact hnone (decide_eq_true (heq.symm.trans hkeyword))

/-- What is built configures nothing twice if what was there did not, and the groups without
braces are new. -/
theorem noneTwice_build (h : es.build cg = .ok g) :
    NoneTwice g.children ↔ NoneTwice cg.children ∧ es.PlainNew (cg.children.map heading) := by
  induction es generalizing cg g with
  | nil => cases h; exact (and_iff_left trivial).symm
  | option name equals value more rest ih =>
    have hrest := ih (build_option_ok h).2
    exact hrest
  | plain name keyword rest ih =>
    obtain ⟨front, back, hsplit, hbuild⟩ := build_plain_ok h
    have hrest := ih hbuild
    have hempty : NoneTwice [] := ⟨.nil, fun _ h => absurd h List.not_mem_nil⟩
    rw [hrest, noneTwice_insert, Entries.plainNew_congr mem_map_heading_insert, notTwice_iff,
      hsplit, Entries.PlainNew]
    exact ⟨fun ⟨⟨h, _, hnew⟩, hrest⟩ => ⟨h, hnew, hrest⟩,
      fun ⟨h, hnew, hrest⟩ => ⟨⟨h, hempty, hnew⟩, hrest⟩⟩
  | braced name keyword opening body closing rest ihBody ih =>
    obtain ⟨b, front, back, hsubgroup, hbody, hsplit, hbuild⟩ := build_braced_ok h
    obtain ⟨hname, hkeyword, _⟩ := build_root hbody
    have hheading : heading b = (name.content, keywordContent keyword) := Prod.ext hname hkeyword
    have hempty : NoneTwice [] := ⟨.nil, fun _ h => absurd h List.not_mem_nil⟩
    have hnot := notTwice_of_subgroup (g := b) hkeyword hsubgroup
    rw [hsplit] at hnot
    rw [ih hbuild, noneTwice_insert, Entries.plainNew_congr mem_map_heading_insert, ihBody hbody,
      hheading, hsplit, Entries.PlainNew]
    exact ⟨fun ⟨⟨h, ⟨_, hinner⟩, _⟩, hrest⟩ => ⟨h, hinner, hrest⟩,
      fun ⟨h, hinner, hrest⟩ => ⟨⟨h, ⟨hempty, hinner⟩, hnot⟩, hrest⟩⟩

/-- An accepted text configures nothing twice exactly if in no group a group without braces is
written behind one with its name and its keyword. -/
theorem accepted_notTwice_iff (h : parseConfig text = some (.ok (g, l))) :
    (∃ es, WrittenAs text es) ∧ ∀ es, WrittenAs text es →
      ((∀ node ∈ g.nodes, node.children.Pairwise NotTwice) ↔ es.PlainNew []) := by
  obtain ⟨es, hwritten, _⟩ := exists_writtenAs h
  refine ⟨⟨es, hwritten⟩, fun es hwritten => ?_⟩
  have hbuild := hwritten.parseConfig_ok_iff.mp ⟨l, h⟩
  have hnodes : (∀ node ∈ g.nodes, node.children.Pairwise NotTwice) ↔ NoneTwice g.children := by
    obtain ⟨b, gs⟩ := g
    simp only [RoseTree.nodes, List.mem_cons, forall_eq_or_imp, NoneTwice]
  have hempty : NoneTwice [] := ⟨.nil, fun _ h => absurd h List.not_mem_nil⟩
  rw [hnodes, noneTwice_build hbuild]
  exact and_iff_right hempty

theorem accepted_notTwice_iff_logs :
    ∃ g l, parseConfig "log a log a".toList = some (.ok (g, l)) ∧
      ∀ es, WrittenAs "log a log a".toList es →
        ((∀ node ∈ g.nodes, node.children.Pairwise NotTwice) ↔ es.PlainNew []) := by
  obtain ⟨g, l, h⟩ := @exists_of_isOk "log a log a".toList (by decide +kernel)
  exact ⟨g, l, h, (accepted_notTwice_iff h).2⟩

/-- One log is configured twice. -/
theorem logs_accepted_twice :
    ∃ g l, parseConfig "log a log a".toList = some (.ok (g, l)) ∧
      ¬ ∀ node ∈ g.nodes, node.children.Pairwise NotTwice := by
  have hlogs : (parseConfig "log a log a".toList).any (fun r => r.toOption.any fun r =>
      r.1.children.map heading = [("log", "a"), ("log", "a")]) = true := by decide +kernel
  rw [Option.any_eq_true] at hlogs
  obtain ⟨r, hr, hany⟩ := hlogs
  cases r with
  | error e => cases hany
  | ok r =>
    obtain ⟨⟨b, gs⟩, l⟩ := r
    refine ⟨⟨b, gs⟩, l, hr, fun h => ?_⟩
    have hheadings : gs.map heading = [("log", "a"), ("log", "a")] := of_decide_eq_true hany
    have hpairwise := h ⟨b, gs⟩ List.mem_cons_self
    rw [List.map_eq_cons_iff] at hheadings
    obtain ⟨x, ys, rfl, hx, hys⟩ := hheadings
    rw [List.map_eq_cons_iff] at hys
    obtain ⟨y, zs, rfl, hy, _⟩ := hys
    obtain ⟨hxname, hxkeyword⟩ := Prod.mk.inj hx
    obtain ⟨hyname, hykeyword⟩ := Prod.mk.inj hy
    refine List.rel_of_pairwise_cons hpairwise List.mem_cons_self
      ⟨hxname.trans hyname.symm, hxkeyword.trans hykeyword.symm, ?_⟩
    rw [hxkeyword]
    decide

end Twice

end Ctguard
