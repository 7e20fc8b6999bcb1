import Ctguard.QuotedBraces

/-!
# Names that are used twice

Entries from which a group can be built are renamed: some of the tokens get another content. If a
name or a keyword is now used twice, then one of the tokens that have changed is to blame, which
is the one that is refused or stands in front of it.
-/

namespace Ctguard

section Blames

variable {Changed : Token → Prop} {Keys Keywords Keys' Keywords' : String → Prop}
  {ms pre post : List (Token × TokenRole)} {e : ParseException} {es es' : Entries}
  {cg cg' g : ConfigGroup}

/-- The name of an option with some content is among the tokens. -/
def NamesOption (Changed : Token → Prop) (ms : List (Token × TokenRole)) (key : String) : Prop :=
  ∃ front k equals back, ms = front ++ (k, .word) :: (equals, .equals) :: back ∧ Changed k ∧
    k.content = key

def HasWord (Changed : Token → Prop) (ms : List (Token × TokenRole)) (key : String) : Prop :=
  ∃ k, (k, TokenRole.word) ∈ ms ∧ Changed k ∧ k.content = key

/-- An exception for a name or a keyword that has been used comes from a token that has changed,
or from what was there. -/
inductive Blames (Changed : Token → Prop) (Keys Keywords : String → Prop)
    (ms : List (Token × TokenRole)) (e : ParseException) : Prop
  | name (us : List (Token × TokenRole)) (n : Token) (vs : List (Token × TokenRole))
      (pos : Position) (split : ms = us ++ (n, .word) :: vs) (position : e.position = n.position)
      (fault : e.fault = .keyDefined n.content pos)
      (changed : Changed n ∨ Keys n.content ∨ NamesOption Changed us n.content)
  | keyword (key : String) (pos : Position) (fault : e.fault = .subgroupDefined key pos)
      (changed : Keywords key ∨ HasWord Changed ms key)

theorem NamesOption.append {key : String} (h : NamesOption Changed ms key)
    (pre : List (Token × TokenRole)) : NamesOption Changed (pre ++ ms) key := by
  obtain ⟨front, k, equals, back, rfl, hk⟩ := h
  exact ⟨pre ++ front, k, equals, back, by simp, hk⟩

theorem NamesOption.extend {key : String} (h : NamesOption Changed ms key)
    (post : List (Token × TokenRole)) : NamesOption Changed (ms ++ post) key := by
  obtain ⟨front, k, equals, back, rfl, hk⟩ := h
  exact ⟨front, k, equals, back ++ post, by simp, hk⟩

theorem HasWord.mono {ns : List (Token × TokenRole)} {key : String} (h : HasWord Changed ms key)
    (hsub : ms ⊆ ns) : HasWord Changed ns key := by
  obtain ⟨k, hk, hchanged⟩ := h
  exact ⟨k, hsub hk, hchanged⟩

/-- What is blamed for an exception of some entries stands among the tokens around them. -/
theorem Blames.within (h : Blames Changed Keys' Keywords' ms e)
    (hkeys : ∀ key, Keys' key → Keys key ∨ NamesOption Changed pre key)
    (hkeywords : ∀ key, Keywords' key → Keywords key ∨ HasWord Changed pre key) :
    Blames Changed Keys Keywords (pre ++ (ms ++ post)) e := by
  cases h with
  | name us n vs pos split position fault changed =>
    refine .name (pre ++ us) n (vs ++ post) pos (by simp [split]) position fault ?_
    rcases changed with hn | hkey | hoption
    · exact .inl hn
    · rcases hkeys _ hkey with hkey | hoption
      · exact .inr (.inl hkey)
      · exact .inr (.inr (hoption.extend us))
    · exact .inr (.inr (hoption.append pre))
  | keyword key pos fault changed =>
    refine .keyword key pos fault ?_
    rcases changed with hkeyword | hword
    · rcases hkeywords _ hkeyword with hkeyword | hword
      · exact .inl hkeyword
      · exact .inr (hword.mono (List.subset_append_left _ _))
    · exact .inr (hword.mono (List.Subset.trans (List.subset_append_left ms post)
        (List.subset_append_right _ _)))

/-- The keys of the options of a group are those of another one, or among some more. -/
def KeysFrom (Keys : String → Prop) (cg cg' : ConfigGroup) : Prop :=
  ∀ o' ∈ cg'.root.options, (∃ o ∈ cg.root.options, o.key = o'.key) ∨ Keys o'.key

def KeywordsFrom (Keywords : String → Prop) (gs gs' : List ConfigGroup) : Prop :=
  ∀ sg' ∈ gs', (∃ sg ∈ gs, sg.root.keyword = sg'.root.keyword) ∨ Keywords sg'.root.keyword

/-- The words keep their contents, or have changed. -/
def Renames (Changed : Token → Prop) (r : TokenRole) (t t' : Token) : Prop :=
  r = .word → t'.content = t.content ∨ Changed t'

/-- The content of a token that has changed. -/
def Renamed (Changed : Token → Prop) (t : Token) (key : String) : Prop :=
  Changed t ∧ t.content = key

theorem Renames.content {t t' : Token} (h : Renames Changed .word t t') :
    t.content = t'.content ∨ Renamed Changed t' t'.content := by
  rcases h rfl with hsame | hchanged
  · exact .inl hsame.symm
  · exact .inr ⟨hchanged, rfl⟩

theorem option?_eq_none {key : String} (h : cg.option? key = none) :
    ∀ o ∈ cg.root.options, o.key ≠ key := by
  intro o ho heq
  have hnone := List.find?_eq_none.mp h o ho
  exact hnone (decide_eq_true heq)

theorem subgroup?_eq_none {keyword : String} (h : cg.subgroup? keyword = none) :
    ∀ sg ∈ cg.children, sg.root.keyword ≠ keyword := by
  intro sg hsg heq
  have hnone := List.find?_eq_none.mp h sg hsg
  exact hnone (decide_eq_true heq)

/-- A name that is refused has changed, or the option that has it. -/
theorem blames_checkKey {name name' : Token} (hname : Renames Changed .word name name')
    (hkey : cg.option? name.content = none) (hkeys : KeysFrom Keys cg cg')
    (h : cg'.checkKey name' = .error e) (vs : List (Token × TokenRole)) :
    Blames Changed Keys Keywords ((name', .word) :: vs) e := by
  rw [ConfigGroup.checkKey] at h
  cases hoption : cg'.option? name'.content with
  | none => rw [hoption] at h; cases h
  | some o =>
    rw [hoption] at h
    cases h
    refine .name [] name' vs o.pos rfl rfl rfl ?_
    rcases hname rfl with hsame | hchanged
    · have hmem := List.mem_of_find?_eq_some hoption
      have heq : o.key = name'.content := by simpa using List.find?_some hoption
      rcases hkeys o hmem with ⟨o', ho', heq'⟩ | hold
      · exact absurd (heq'.trans (heq.trans hsame)) (option?_eq_none hkey o' ho')
      · exact .inr (.inl (heq ▸ hold))
    · exact .inl hchanged

theorem blames_checkKeyword {keyword keyword' : Option Token} {opening' : Token}
    (hkeyword : Option.Rel (Renames Changed .word) keyword keyword')
    (hnone : ∀ k ∈ keyword, cg.subgroup? k.content = none)
    (hkeywords : KeywordsFrom Keywords cg.children cg'.children)
    (h : cg'.checkKeyword keyword' opening' = .error e) (hms : ∀ k ∈ keyword', (k, .word) ∈ ms) :
    Blames Changed Keys Keywords ms e := by
  cases hkeyword with
  | none => cases h
  | @some k k' hk =>
    rw [ConfigGroup.checkKeyword] at h
    cases hsubgroup : cg'.subgroup? k'.content with
    | none => simp [hsubgroup] at h
    | some sg =>
      simp only [hsubgroup] at h
      cases h
      refine .keyword k'.content sg.root.pos rfl ?_
      rcases hk rfl with hsame | hchanged
      · have hmem := List.mem_of_find?_eq_some hsubgroup
        have heq : sg.root.keyword = k'.content := by simpa using List.find?_some hsubgroup
        rcases hkeywords sg hmem with ⟨sg', hsg', heq'⟩ | hold
        · exact absurd (heq'.trans (heq.trans hsame)) (subgroup?_eq_none (hnone k rfl) sg' hsg')
        · exact .inl (heq ▸ hold)
      · exact .inr ⟨k', hms k' rfl, hchanged, rfl⟩

theorem not_duplicate_of_emplaceGroup {position : Position}
    (h : cg.emplaceGroup g position = .error e) : ¬ e.fault.IsDuplicate := by
  rw [ConfigGroup.emplaceGroup] at h
  split at h
  · cases h
  · cases h
    exact id

theorem keywordsFrom_insert {gs gs' front back front' back' : List ConfigGroup}
    {sg sg' : ConfigGroup} (h : KeywordsFrom Keywords gs gs') (hgs : gs = front ++ back)
    (hgs' : gs' = front' ++ back')
    (hkeyword : sg.root.keyword = sg'.root.keyword ∨ Keywords' sg'.root.keyword) :
    KeywordsFrom (fun key => Keywords key ∨ Keywords' key) (front ++ sg :: back)
      (front' ++ sg' :: back') := by
  intro x hx
  rw [hgs, hgs'] at h
  have hcases : x = sg' ∨ x ∈ front' ++ back' := by
    simp only [List.mem_append, List.mem_cons] at hx ⊢
    tauto
  rcases hcases with rfl | hold
  · rcases hkeyword with heq | hnew
    · exact .inl ⟨sg, by simp, heq⟩
    · exact .inr (.inr hnew)
  · rcases h x hold with ⟨y, hy, heq⟩ | hkeyword
    · refine .inl ⟨y, ?_, heq⟩
      simp only [List.mem_append, List.mem_cons] at hy ⊢
      tauto
    · exact .inr (.inl hkeyword)

theorem keysFrom_concat {o o' : ConfigOption} {b b' : ConfigHead} {gs gs' : List ConfigGroup}
    (h : KeysFrom Keys ⟨b, gs⟩ ⟨b', gs'⟩) (hkey : o.key = o'.key ∨ Keys' o'.key) :
    KeysFrom (fun key => Keys key ∨ Keys' key) ⟨{ b with options := b.options ++ [o] }, gs⟩
      ⟨{ b' with options := b'.options ++ [o'] }, gs'⟩ := by
  intro x hx
  rcases List.mem_append.mp hx with hold | hnew
  · rcases h x hold with ⟨y, hy, heq⟩ | hkeys
    · exact .inl ⟨y, List.mem_append_left _ hy, heq⟩
    · exact .inr (.inl hkeys)
  · obtain rfl := List.mem_singleton.mp hnew
    rcases hkey with heq | hkeys
    · exact .inl ⟨o, by simp, heq⟩
    · exact .inr (.inr hkeys)

theorem bind_eq_error {α β : Type} {r : Except ParseException α}
    {f : α → Except ParseException β} (h : r >>= f = .error e) :
    r = .error e ∨ ∃ a, r = .ok a ∧ f a = .error e := by
  cases r with
  | error e' => exact .inl (congrArg Except.error (Except.error.inj h))
  | ok a => exact .inr ⟨a, rfl, h⟩

theorem build_plain_key {name keyword : Token} {rest : Entries}
    (h : (Entries.plain name keyword rest).build cg = .ok g) :
    cg.option? name.content = none := by
  rw [Entries.build, bind_eq_ok] at h
  obtain ⟨_, hcheck, _⟩ := h
  exact checkKey_ok hcheck

theorem build_braced_key {name opening closing : Token} {keyword : Option Token}
    {body rest : Entries}
    (h : (Entries.braced name keyword opening body closing rest).build cg = .ok g) :
    cg.option? name.content = none := by
  rw [Entries.build, bind_eq_ok] at h
  obtain ⟨_, hcheck, _⟩ := h
  exact checkKey_ok hcheck

/-- If entries can be built, but not those that they are renamed to, a name or a keyword that has
changed is to blame. -/
theorem blames_of_build (halike : es.Alike (Renames Changed) es') (hbuild : es.build cg = .ok g)
    (hkeys : KeysFrom Keys cg cg') (hkeywords : KeywordsFrom Keywords cg.children cg'.children)
    (h : es'.build cg' = .error e) (hduplicate : e.fault.IsDuplicate) :
    Blames Changed Keys Keywords es'.marked e := by
  induction halike generalizing cg cg' g Keys Keywords with
  | nil => cases h
  | @option n equals v n' equals' v' more more' rest rest' name _ value values _ ih =>
    obtain ⟨hkey, hrest⟩ := build_option_ok hbuild
    rcases bind_eq_error h with hcheck | ⟨_, hcheck, h⟩
    · exact blames_checkKey name hkey hkeys hcheck _
    · rw [emplaceOption_eq (o := ⟨n'.content, _, _⟩) (checkKey_ok hcheck)] at h
      have hbehind := ih hrest (keysFrom_concat hkeys name.content) hkeywords h
      have hwithin := @Blames.within _ Keys Keywords _ _ _ ((n', .word) :: (equals', .equals) ::
        (v', .value) :: more'.map (·, .value)) [] _ hbehind ?_ fun _ hkey => .inl hkey
      · simpa [Entries.marked] using hwithin
      · rintro key (hkey | ⟨hchanged, hkey⟩)
        · exact .inl hkey
        · exact .inr ⟨[], n', equals', _, rfl, hchanged, hkey⟩
  | @plain n k n' k' rest rest' name keyword _ ih =>
    obtain ⟨front, back, hsplit, hrest⟩ := build_plain_ok hbuild
    rcases bind_eq_error h with hcheck | ⟨_, _, h⟩
    · exact blames_checkKey name (build_plain_key hbuild) hkeys hcheck _
    rcases bind_eq_error h with hemplace | ⟨cg'', hemplace, h⟩
    · exact absurd hduplicate (not_duplicate_of_emplaceGroup hemplace)
    obtain ⟨front', back', hsplit', rfl⟩ := emplaceGroup_ok hemplace
    have hbehind : Blames Changed Keys (fun key => Keywords key ∨ Renamed Changed k' key)
        rest'.marked e := by
      refine ih hrest ?_ ?_ h
      · exact hkeys
      · exact keywordsFrom_insert hkeywords hsplit hsplit' keyword.content
    have hwithin := @Blames.within _ Keys Keywords _ _ _ [(n', .word), (k', .word)] [] _ hbehind
      (fun _ hkey => .inl hkey) ?_
    · simpa [Entries.marked] using hwithin
    · rintro key (hkey | ⟨hchanged, hkey⟩)
      · exact .inl hkey
      · exact .inr ⟨k', by simp, hchanged, hkey⟩
  | @braced n o c n' o' c' k k' body rest body' rest' name keyword opening _ closing _ ihInner
      ihBehind =>
    obtain ⟨b, front, back, hnone, hbody, hsplit, hrest⟩ := build_braced_ok hbuild
    rcases bind_eq_error h with hcheck | ⟨_, _, h⟩
    · exact blames_checkKey name (build_braced_key hbuild) hkeys hcheck _
    rcases bind_eq_error h with hcheck | ⟨_, _, h⟩
    · refine blames_checkKeyword keyword hnone hkeywords hcheck fun t ht => ?_
      cases ht
      simp [Entries.marked]
    rcases bind_eq_error h with hbody' | ⟨b', hbody', h⟩
    · have hinner : Blames Changed (fun _ => False) (fun _ => False) body'.marked e := by
        refine ihInner hbody ?_ ?_ hbody'
        · exact fun _ ho => absurd ho List.not_mem_nil
        · exact fun _ hsg => absurd hsg List.not_mem_nil
      have hwithin := @Blames.within _ Keys Keywords _ _ _ ((n', .word) ::
        (k'.toList.map (·, .word) ++ [(o', .opening)])) ((c', .closing) :: rest'.marked) _ hinner
        (fun _ hkey => hkey.elim) (fun _ hkey => hkey.elim)
      simpa [Entries.marked] using hwithin
    rcases bind_eq_error h with hemplace | ⟨cg'', hemplace, h⟩
    · exact absurd hduplicate (not_duplicate_of_emplaceGroup hemplace)
    obtain ⟨front', back', hsplit', rfl⟩ := emplaceGroup_ok hemplace
    have hkeyword : b.root.keyword = b'.root.keyword ∨
        ∃ t ∈ k', Renamed Changed t b'.root.keyword := by
      rw [(build_root hbody).2.1, (build_root hbody').2.1]
      cases keyword with
      | none => exact .inl rfl
      | @some t t' ht => exact ht.content.imp id fun hrenamed => ⟨t', rfl, hrenamed⟩
    have hbehind : Blames Changed Keys (fun key => Keywords key ∨ ∃ t ∈ k', Renamed Changed t key)
        rest'.marked e := by
      refine ihBehind hrest ?_ ?_ h
      · exact hkeys
      · exact keywordsFrom_insert hkeywords hsplit hsplit' hkeyword
    have hwithin := @Blames.within _ Keys Keywords _ _ _ ((n', .word) ::
      (k'.toList.map (·, .word) ++ (o', .opening) :: (body'.marked ++ [(c', .closing)]))) [] _
      hbehind (fun _ hkey => .inl hkey) ?_
    · simpa [Entries.marked] using hwithin
    · rintro key (hkey | ⟨t, ht, hchanged, hkey⟩)
      · exact .inl hkey
      · cases ht
        exact .inr ⟨t, by simp, hchanged, hkey⟩

end Blames
end Ctguard
