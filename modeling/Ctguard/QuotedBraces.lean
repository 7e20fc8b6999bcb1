import Ctguard.QuotedTexts

/-!
# Quoted texts that stand for braces

A new content that does not stay a text changes what is read: a quoted brace opens a group that no
brace ends, a line break that is gone makes a name one more value, and a byte that is taken for the
end of the input is in no name.
-/

namespace Ctguard

section Strings

variable {Q : String → Prop} {es : Entries} {cg g : ConfigGroup}

/-- All names, keywords, keys and values of a group satisfy a property. -/
def HeadStrings (Q : String → Prop) (b : ConfigHead) : Prop :=
  Q b.name ∧ Q b.keyword ∧ ∀ o ∈ b.options, Q o.key ∧ ∀ s ∈ o.options, Q s

def AllStrings (Q : String → Prop) (g : ConfigGroup) : Prop :=
  HeadStrings Q g.root ∧ ∀ node ∈ RoseTree.forestNodes g.children, HeadStrings Q node.root

theorem headStrings_append {b : ConfigHead} {o : ConfigOption} :
    HeadStrings Q { b with options := b.options ++ [o] } ↔
      HeadStrings Q b ∧ Q o.key ∧ ∀ s ∈ o.options, Q s := by
  simp only [HeadStrings, List.mem_append, List.mem_singleton, or_imp, forall_and, forall_eq]
  tauto

theorem allStrings_insert {b : ConfigHead} {front back : List ConfigGroup} :
    AllStrings Q ⟨b, front ++ g :: back⟩ ↔ AllStrings Q ⟨b, front ++ back⟩ ∧ AllStrings Q g := by
  simp only [AllStrings, RoseTree.mem_forestNodes_insert, or_imp, forall_and, forall_eq]
  tauto

theorem allStrings_empty (hQ : Q "") {name : String} {keyword : Option Token} {pos : Position} :
    AllStrings Q (.empty name (keywordContent keyword) pos) ↔
      Q name ∧ ∀ k ∈ keyword, Q k.content := by
  cases keyword with
  | none => simp [AllStrings, HeadStrings, ConfigGroup.empty, keywordContent, hQ]
  | some k => simp [AllStrings, HeadStrings, ConfigGroup.empty, keywordContent]

/-- What is built consists of what was there, and of the words and the values of the entries. -/
theorem allStrings_build (hQ : Q "") (h : es.build cg = .ok g) :
    AllStrings Q g ↔ AllStrings Q cg ∧
      ∀ m ∈ es.marked, m.2 = .word ∨ m.2 = .value → Q m.1.content := by
  induction es generalizing cg g with
  | nil =>
    cases h
    exact (and_iff_left fun m hm => absurd hm List.not_mem_nil).symm
  | option name equals value more rest ih =>
    have hrest := ih (build_option_ok h).2
    rw [hrest]
    simp only [AllStrings, headStrings_append, Entries.marked, List.forall_mem_cons,
      List.forall_mem_append, List.forall_mem_map, true_or, or_true, reduceCtorEq, or_self,
      false_imp_iff, forall_const, true_and]
    tauto
  | plain name keyword rest ih =>
    obtain ⟨front, back, hsplit, hbuild⟩ := build_plain_ok h
    have hempty := @allStrings_empty Q hQ name.content (some keyword) name.position
    obtain ⟨b, gs⟩ := cg
    simp only [] at hsplit
    rw [keywordContent, Option.map_some, Option.getD_some] at hempty
    rw [ih hbuild, allStrings_insert, hempty, hsplit]
    simp only [Entries.marked, List.forall_mem_cons, Option.mem_def, Option.some.injEq,
      forall_eq', true_or, forall_const]
    tauto
  | braced name keyword opening body closing rest ihBody ihRest =>
    obtain ⟨b, front, back, _, hbody, hsplit, hbuild⟩ := build_braced_ok h
    obtain ⟨b', gs⟩ := cg
    simp only [] at hsplit
    rw [ihRest hbuild, allStrings_insert, ihBody hbody, allStrings_empty hQ, hsplit]
    simp only [Entries.marked, List.forall_mem_cons, List.forall_mem_append, List.forall_mem_map,
      Option.mem_toList, true_or, reduceCtorEq, or_self, false_imp_iff, forall_const, true_and]
    tauto

end Strings

section Refused

variable {cg : ConfigGroup} {needClose : Bool} {ts : List Token} {e : ParseException}
  {key : String} {pos : Position} {n : ℕ}

theorem behindName_refused {name : Token} (h : behindName cg name n ts = .error e) :
    (∀ key pos, e.fault ≠ .keyDefined key pos) ∧
      ∀ keyword pos, e.fault = .subgroupDefined keyword pos →
        (nextToken ts).isChar '{' = false ∧ keyword = (nextToken ts).content := by
  simp only [behindName] at h
  split at h
  · cases h
  case isFalse hbrace =>
    split at h
    · simp only [behindKeyword] at h
      split at h
      · split at h
        · cases h
          refine ⟨fun _ _ => ParseFault.noConfusion, fun keyword pos heq => ?_⟩
          cases heq
          exact ⟨Bool.eq_false_iff.mpr hbrace, rfl⟩
        · cases h
      · cases h
    split at h
    · cases h
      exact ⟨fun _ _ => ParseFault.noConfusion, fun _ _ => ParseFault.noConfusion⟩
    split at h
    · cases h
      exact ⟨fun _ _ => ParseFault.noConfusion, fun _ _ => ParseFault.noConfusion⟩
    · cases h

theorem production_keyDefined_eq (h : production needClose cg n ts = .error e)
    (he : e.fault = .keyDefined key pos) :
    (nextToken ts).isName = true ∧ e.position = (nextToken ts).position ∧
      key = (nextToken ts).content := by
  simp only [production] at h
  split at h
  case isTrue hname =>
    split at h
    · cases h
      cases he
      exact ⟨hname, rfl, rfl⟩
    · exact absurd he ((behindName_refused h).1 _ _)
  case isFalse =>
    split at h
    · cases h
    split at h
    · split at h
      · cases h; cases he
      · cases h
    · cases h; cases he

theorem production_subgroupDefined_eq (h : production needClose cg n ts = .error e)
    (he : e.fault = .subgroupDefined key pos) :
    (nextToken (advance ts)).isChar '{' = false ∧ key = (nextToken (advance ts)).content := by
  simp only [production] at h
  split at h
  · split at h
    · cases h; cases he
    · exact (behindName_refused h).2 _ _ he
  split at h
  · cases h
  split at h
  · split at h
    · cases h; cases he
    · cases h
  · cases h; cases he

theorem nextToken_mem (h : Ended ts) : nextToken ts ∈ ts := by
  obtain ⟨t, us, rfl⟩ := h.exists_cons
  exact List.mem_cons_self

theorem advance_subset (ts : List Token) : advance ts ⊆ ts := by
  match ts with
  | [] => exact List.Subset.refl _
  | [t] => exact List.Subset.refl _
  | _ :: t :: ts => exact List.subset_cons_self _ _

/-- A keyword that is refused is written in the text, and is no brace. -/
theorem Parses.subgroupDefined (h : Parses needClose cg ts (.error e)) (hended : Ended ts)
    (he : e.fault = .subgroupDefined key pos) :
    ∃ t ∈ ts, key = t.content ∧ t.isChar '{' = false := by
  generalize hr : Except.error e = r at h
  induction h with
  | throws turn =>
    cases hr
    obtain ⟨hno, hkey⟩ := production_subgroupDefined_eq turn he
    exact ⟨_, advance_subset _ (nextToken_mem hended.advance), hkey, hno⟩
  | closing => cases hr
  | option turn ended _ _ ih | plain turn ended _ _ ih =>
    obtain ⟨name, used, rfl, _⟩ := turn.exists_name
    obtain ⟨t, ht, hkey⟩ := ih ended hr
    exact ⟨t, List.mem_cons_of_mem _ (List.mem_append_right _ ht), hkey⟩
  | plainThrows _ _ emplace | openingThrows _ _ _ emplace =>
    cases hr
    rw [ConfigGroup.emplaceGroup] at emplace
    split at emplace
    · cases emplace
    · cases emplace
      cases he
  | bodyThrows turn ended _ ih =>
    obtain ⟨name, used, rfl, _⟩ := turn.exists_name
    obtain ⟨t, ht, hkey⟩ := ih ended hr
    exact ⟨t, List.mem_cons_of_mem _ (List.mem_append_right _ ht), hkey⟩
  | opening turn ended body _ _ _ ih =>
    obtain ⟨name, used, rfl, _⟩ := turn.exists_name
    obtain ⟨bs, closing, behind, rfl, _, _, hcloses⟩ := body.exists_entries
    obtain ⟨t, ht, hkey⟩ := ih (body.ended_rest ended).1 hr
    cases hcloses with
    | brace => exact ⟨t, by simp [ht], hkey⟩

/-- Each sign that assigns values stands behind a name. -/
def EqualsBehindWords : TokenRole → List (Token × TokenRole) → Prop
  | _, [] => True
  | previous, m :: ms => (m.2 = .equals → previous = .word) ∧ EqualsBehindWords m.2 ms

theorem equalsBehindWords_append {previous : TokenRole} {ms ns : List (Token × TokenRole)}
    (hms : EqualsBehindWords previous ms) (hns : ∀ r, EqualsBehindWords r ns) :
    EqualsBehindWords previous (ms ++ ns) := by
  induction ms generalizing previous with
  | nil => exact hns previous
  | cons m ms ih => exact ⟨hms.1, ih hms.2⟩

/-- The first of the tokens assigns nothing, and each that does stands behind a name. -/
def Regular (ms : List (Token × TokenRole)) : Prop := ∀ previous, EqualsBehindWords previous ms

theorem Regular.append {ms ns : List (Token × TokenRole)} (hms : Regular ms) (hns : Regular ns) :
    Regular (ms ++ ns) := fun previous => equalsBehindWords_append (hms previous) hns

theorem regular_cons {t : Token} {r : TokenRole} {ms : List (Token × TokenRole)}
    (hr : r ≠ .equals) (hms : Regular ms) : Regular ((t, r) :: ms) :=
  fun _ => ⟨fun h => absurd h hr, hms r⟩

theorem regular_nil : Regular [] := fun _ => trivial

theorem regular_map {r : TokenRole} (hr : r ≠ .equals) (ts : List Token) :
    Regular (ts.map (·, r)) := by
  induction ts with
  | nil => exact regular_nil
  | cons t ts ih => exact regular_cons hr ih

theorem regular_marked (es : Entries) : Regular es.marked := by
  induction es with
  | nil => exact regular_nil
  | option name equals value more rest ih =>
    have hvalues : Regular ((value, .value) :: (more.map (·, .value) ++ rest.marked)) :=
      regular_cons (by decide) ((regular_map (by decide) more).append ih)
    exact fun _ => ⟨fun h => (nomatch h), fun _ => rfl, hvalues .equals⟩
  | plain name keyword rest ih =>
    exact regular_cons (by decide) (regular_cons (by decide) ih)
  | braced name keyword opening body closing rest ihBody ihRest =>
    refine regular_cons (by decide) ((regular_map (by decide) _).append ?_)
    exact regular_cons (by decide) (ihBody.append (regular_cons (by decide) ihRest))

variable {mid : List Token} {p : Production} {s : TokenPlace}

/-- The tokens of a turn have the roles of an entry, or of what opens one. -/
theorem Produces.walk (turn : Produces cg ts p mid) (hs : s.Ready (nextToken ts)) :
    ∃ used, ts = used ++ mid ∧ (s.walk used).Ready (nextToken mid) ∧ Regular (s.mark used) := by
  have hentries {es : Entries} (hvalid : es.Valid (nextToken mid))
      (hfirst : s.Ready (es.first (nextToken mid))) :
      (s.walk es.tokens).Ready (nextToken mid) ∧ Regular (s.mark es.tokens) := by
    obtain ⟨hmark, hready⟩ := hvalid.mark_eq hfirst
    exact ⟨hready, hmark ▸ regular_marked es⟩
  cases turn with
  | @option name equals value more _ isName key notName isEquals isValue line stop =>
    have hwalk := @hentries (.option name equals value more .nil)
      ⟨isName, ⟨notName, isEquals⟩, isValue, line, stop, trivial⟩ hs
    exact ⟨_, by simp [Entries.tokens], hwalk⟩
  | @plain name keyword _ isName key keywordName noBrace stop =>
    have hwalk := @hentries (.plain name keyword .nil)
      ⟨isName, ⟨keywordName, noBrace⟩, stop, trivial⟩ hs
    exact ⟨_, rfl, hwalk⟩
  | @opening name brace _ isName key isBrace =>
    obtain ⟨hrole, hnext⟩ := TokenPlace.role_word (t := name) hs isName
    obtain ⟨hrole', hnext'⟩ := TokenPlace.role_opening isBrace
    refine ⟨[name, brace], rfl, ?_, ?_⟩
    · rw [TokenPlace.walk, TokenPlace.walk, TokenPlace.walk, hnext, hnext']
      exact Entries.ready_free _
    · rw [TokenPlace.mark, TokenPlace.mark, TokenPlace.mark, hrole, hnext, hrole']
      exact regular_cons (by decide) (regular_cons (by decide) regular_nil)
  | @keyword name keyword brace _ isName key keywordName noBrace isBrace subgroup =>
    obtain ⟨hrole, hnext⟩ := TokenPlace.role_word (t := name) hs isName
    obtain ⟨hrole', hnext'⟩ :=
      TokenPlace.role_word (Entries.ready_named_of_not_brace noBrace) keywordName
    obtain ⟨hrole'', hnext''⟩ := TokenPlace.role_opening isBrace
    refine ⟨[name, keyword, brace], rfl, ?_, ?_⟩
    · simp only [TokenPlace.walk, hnext, hnext', hnext'']
      exact Entries.ready_free _
    · simp only [TokenPlace.mark, hrole, hnext, hrole', hnext', hrole'']
      exact regular_cons (by decide) (regular_cons (by decide)
        (regular_cons (by decide) regular_nil))

/-- The tokens of a group that has been read have the roles of its entries, and the brace behind
them ends it. -/
theorem Parses.walk_body {g : ConfigGroup} {rest : List Token} (ended : Ended ts)
    (body : Parses true cg ts (.ok (g, rest))) (hs : s.Ready (nextToken ts)) :
    ∃ used, ts = used ++ rest ∧ s.walk used = .free ∧ Regular (s.mark used) := by
  obtain ⟨es, closing, behind, rfl, hvalid, -, hcloses⟩ := body.exists_entries
  rw [nextToken_tokens] at hs
  obtain ⟨hmark, hready⟩ := hvalid.mark_eq hs
  cases hcloses with
  | brace notName isBrace =>
    obtain ⟨hrole, hnext⟩ := TokenPlace.role_closing hready notName
      (Entries.not_equals_of_isChar isBrace (by decide))
    refine ⟨es.tokens ++ [closing], by simp, ?_, ?_⟩
    · rw [TokenPlace.walk_append, TokenPlace.walk, TokenPlace.walk, hnext]
    · rw [TokenPlace.mark_append, hmark, TokenPlace.mark, TokenPlace.mark, hrole]
      exact (regular_marked es).append (regular_cons (by decide) regular_nil)

/-- A name that is refused stands where a name is read, behind entries that have been read. -/
theorem Parses.keyDefined (h : Parses needClose cg ts (.error e)) (hended : Ended ts)
    (he : e.fault = .keyDefined key pos) (hs : s.Ready (nextToken ts)) :
    ∃ us t vs, ts = us ++ t :: vs ∧ t.isName = true ∧ e.position = t.position ∧ key = t.content ∧
      (s.walk us).Ready t ∧ Regular (s.mark us) := by
  generalize hr : Except.error e = r at h
  induction h generalizing s with
  | @throws _ _ ts e' turn =>
    cases hr
    obtain ⟨hname, hposition, hkey⟩ := production_keyDefined_eq turn he
    obtain ⟨t, us, rfl⟩ := hended.exists_cons
    exact ⟨[], t, us, rfl, hname, hposition, hkey, hs, regular_nil⟩
  | closing => cases hr
  | option turn ended _ _ ih | plain turn ended _ _ ih | bodyThrows turn ended _ ih =>
    obtain ⟨used, rfl, hready, hregular⟩ := turn.walk hs
    obtain ⟨us, t, vs, rfl, hname, hposition, hkey, hwalk, hmark⟩ := ih ended hready hr
    refine ⟨used ++ us, t, vs, by rw [List.append_assoc], hname, hposition, hkey, ?_, ?_⟩
    · rwa [TokenPlace.walk_append]
    · rw [TokenPlace.mark_append]
      exact hregular.append hmark
  | plainThrows _ _ emplace | openingThrows _ _ _ emplace =>
    cases hr
    rw [ConfigGroup.emplaceGroup] at emplace
    split at emplace
    · cases emplace
    · cases emplace
      cases he
  | opening turn ended body _ _ _ ih =>
    obtain ⟨used, rfl, hready, hregular⟩ := turn.walk hs
    obtain ⟨inner, rfl, hfree, hinner⟩ := Parses.walk_body ended body hready
    have hbehind := (body.ended_rest ended).1
    obtain ⟨us, t, vs, rfl, hname, hposition, hkey, hwalk, hmark⟩ :=
      ih hbehind (Entries.ready_free _) hr
    refine ⟨used ++ (inner ++ us), t, vs, by simp, hname, hposition, hkey, ?_, ?_⟩
    · rwa [TokenPlace.walk_append, TokenPlace.walk_append, hfree]
    · rw [TokenPlace.mark_append, TokenPlace.mark_append, hfree]
      exact hregular.append (hinner.append hmark)

end Refused

end Ctguard
