import Ctguard.QuotedOutcomes

/-!
# Replacing a quoted text

When a quoted text of an accepted configuration gets another content, only this content changes in
what is read, as long as the text stays a text. A quoted brace behind a name opens a group.
-/

namespace Ctguard

section Replacement

variable {pre post : List Piece} {q : Char} {c c' rest : List Char} {g : ConfigGroup} {l : Lexer}

/-- What quoting a text promises: it is no punctuation, and with another content only the content
changes, unless a name or a keyword is then used twice. -/
def QuotedAsText (pre : List Piece) (q : Char) (c c' : List Char) (post : List Piece)
    (rest : List Char) : Prop :=
  ∀ es es', WrittenAs (texts (withQuoted pre q c post) ++ rest) es →
    es.Alike (fun _ => Corresponds (quotedToken pre q c) (quotedToken pre q c')) es' →
    es'.tokens = textTokens (withQuoted pre q c' post) →
    PunctuationUnquoted (withQuoted pre q c post) es ∧
      GivenBy (texts (withQuoted pre q c' post) ++ rest) es'

/-- The text that is given another content is read with it exactly if it stays a text. -/
theorem quotedAsText_iff (hlexed : Lexed (withQuoted pre q c post) rest) (hq : q ∉ c')
    (hsize : (texts (withQuoted pre q c' post) ++ rest).length < 2 ^ 32)
    (h : parseConfig (texts (withQuoted pre q c post) ++ rest) = some (.ok (g, l))) :
    QuotedAsText pre q c c' post rest ↔ StaysText pre q c c' post := by
  constructor
  · intro hquoted
    obtain ⟨es, hwritten, hbuild⟩ := exists_writtenAs h
    obtain ⟨htokens, hvalid⟩ := (writtenAs_iff hlexed).mp hwritten
    obtain ⟨es', halike, htokens'⟩ := exists_replaced htokens c'
    obtain ⟨hunquoted, hgiven⟩ := hquoted es es' hwritten halike htokens'
    have hreplaced : Replaced pre q c c' post rest es es' :=
      ⟨hlexed, htokens, hvalid, ⟨g, hbuild⟩, halike, htokens', hunquoted⟩
    exact hreplaced.staysText hq hsize hgiven
  · intro hstays es es' hwritten halike htokens'
    obtain ⟨htokens, hvalid⟩ := (writtenAs_iff hlexed).mp hwritten
    exact ⟨hstays.punctuationUnquoted hlexed htokens hvalid,
      hstays.givenBy hlexed hq hsize htokens hvalid halike htokens'⟩

end Replacement

section Decidable

-- The instances are given by name: there may be one that goes through all characters.
instance decidableValid : (p : Piece) → Decidable p.Valid
  | .blank _ => inferInstanceAs (Decidable (_ = true))
  | .comment cs => List.decidableBAll _ cs
  | .quoted _ cs => @instDecidableAnd (_ ∨ _) _ inferInstance (List.decidableBAll _ cs)
  | .unclosed _ cs => @instDecidableAnd (_ ∨ _) _ inferInstance (List.decidableBAll _ cs)
  | .word _ cs => @instDecidableAnd (_ = true) _ inferInstance (List.decidableBAll _ cs)
  | .number _ cs => @instDecidableAnd (_ = true) _ inferInstance (List.decidableBAll _ cs)
  | .mark _ => inferInstanceAs (Decidable (_ = true))

instance decidableStops (after : List Char) : (p : Piece) → Decidable (p.Stops after)
  | .blank _ => inferInstanceAs (Decidable True)
  | .comment _ => Option.decidableForallMem _
  | .quoted _ _ => inferInstanceAs (Decidable True)
  | .unclosed _ _ => Option.decidableForallMem _
  | .word _ _ => Option.decidableForallMem _
  | .number _ _ => Option.decidableForallMem _
  | .mark _ => inferInstanceAs (Decidable True)

theorem lexed_cons_iff {p : Piece} {ps : List Piece} {rest : List Char} :
    Lexed (p :: ps) rest ↔ p.Valid ∧ p.Stops (texts ps ++ rest) ∧ Lexed ps rest := by
  constructor
  · rintro (_ | ⟨valid, stops, behind⟩)
    exact ⟨valid, stops, behind⟩
  · rintro ⟨valid, stops, behind⟩
    exact .cons valid stops behind

instance decidableLexed (rest : List Char) : (ps : List Piece) → Decidable (Lexed ps rest)
  | [] =>
    @decidable_of_iff _ (∀ c ∈ rest.head?, c = eofChar) ⟨.done, Lexed.rest_head⟩
      (Option.decidableForallMem _)
  | _ :: ps =>
    have := decidableLexed rest ps
    decidable_of_iff _ lexed_cons_iff.symm

end Decidable

section Quoted

def valuePieces : List Piece := [.word 'p' [], .blank ' ', .mark '=', .blank ' ']

/-- An option of which the quoted value is replaced. -/
theorem quotedAsText_iff_value :
    ∃ g l, parseConfig (texts (withQuoted valuePieces '"' ['x'] []) ++ []) = some (.ok (g, l)) ∧
      (QuotedAsText valuePieces '"' ['x'] ['y'] [] [] ↔
        StaysText valuePieces '"' ['x'] ['y'] []) := by
  obtain ⟨g, l, h⟩ := @exists_of_isOk (texts (withQuoted valuePieces '"' ['x'] []) ++ [])
    (by decide +kernel)
  exact ⟨g, l, h, quotedAsText_iff (by decide +kernel) (by decide) (by decide) h⟩

def openedPieces : List Piece := [.word 'l' ['o', 'g'], .blank ' ']

/-- An option in a group, and the brace that ends the group. -/
def closedPieces : List Piece :=
  [.blank ' ', .word 'p' [], .blank ' ', .mark '=', .blank ' ', .word 'x' [], .blank ' ',
    .mark '}']

/-- A quoted brace opens a group, which ends where the brace that has no other one stands. With
another content, this brace is not known. -/
theorem quotedBrace_not_quotedAsText :
    ∃ g l, parseConfig (texts (withQuoted openedPieces '"' ['{'] closedPieces) ++ []) =
        some (.ok (g, l)) ∧
      ¬ QuotedAsText openedPieces '"' ['{'] ['f', 'o', 'o'] closedPieces [] := by
  obtain ⟨g, l, h⟩ := @exists_of_isOk
    (texts (withQuoted openedPieces '"' ['{'] closedPieces) ++ []) (by decide +kernel)
  refine ⟨g, l, h, fun hquoted => ?_⟩
  obtain ⟨es, hwritten, -⟩ := exists_writtenAs h
  have hlexed : Lexed (withQuoted openedPieces '"' ['{'] closedPieces) [] := by decide +kernel
  obtain ⟨htokens, -⟩ := (writtenAs_iff hlexed).mp hwritten
  obtain ⟨es', halike, htokens'⟩ := exists_replaced htokens ['f', 'o', 'o']
  obtain ⟨-, hgiven⟩ := hquoted es es' hwritten halike htokens'
  have hunknown : (parseConfig
      (texts (withQuoted openedPieces '"' ['f', 'o', 'o'] closedPieces) ++ [])).any
      (fun r => match r with
        | .ok _ => false
        | .error e => e.fault = .unknownToken "\x7d") = true := by
    decide +kernel
  rcases hgiven with ⟨g, l, -, hparse⟩ | ⟨e, -, hduplicate, hparse⟩
  · rw [hparse] at hunknown
    cases hunknown
  · rw [hparse] at hunknown
    rw [of_decide_eq_true hunknown] at hduplicate
    exact hduplicate

end Quoted

end Ctguard
