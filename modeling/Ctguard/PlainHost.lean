import Ctguard.ParseRules

/-!
# Expressions that are plain texts

A host whose expressions are texts without special characters, optionally followed by
one group `(.*)`. On these it does what the grammar of ECMAScript prescribes, and it
refuses every other expression. All time stamps are those of the epoch.
-/

namespace Ctguard

/-- The expression `literal`, or `literal(.*)` with a group. -/
structure PlainRegex where
  literal : List Char
  group : Bool
  deriving DecidableEq, Repr

namespace PlainRegex

def special : List Char := "\\^$.|?*+()[]\x7b\x7d".toList

def compile (pattern : String) : Except String PlainRegex :=
  let cs := pattern.toList
  let group := "(.*)".toList.isSuffixOf cs
  let literal := if group then cs.take (cs.length - 4) else cs
  if literal.any (special.contains ·) then .error "Parenthesis is not closed."
  else .ok ⟨literal, group⟩

/-- What a group `(.*)` takes of a text: everything up to the end of the line. -/
def line (cs : List Char) : List Char := cs.takeWhile fun c => c ≠ '\n' ∧ c ≠ '\r'

def matchesOf (r : PlainRegex) (behind : List Char) : List String :=
  if r.group then [String.ofList (line behind)] else []

/-- The leftmost match in a text. -/
def searchChars (r : PlainRegex) : List Char → Option (List String)
  | [] => if r.literal = [] then some (r.matchesOf []) else none
  | c :: cs =>
    if r.literal.isPrefixOf (c :: cs) then
      some (r.matchesOf ((c :: cs).drop r.literal.length))
    else r.searchChars cs

/-- A match of a whole text. -/
def fullMatchChars (r : PlainRegex) (cs : List Char) : Option (List String) :=
  let behind := cs.drop r.literal.length
  if r.literal.isPrefixOf cs ∧ (if r.group then line behind = behind else behind = []) then
    some (r.matchesOf behind)
  else none

def markCount (r : PlainRegex) : ℕ := if r.group then 1 else 0

theorem length_matchesOf (r : PlainRegex) (behind : List Char) :
    (r.matchesOf behind).length = r.markCount := by
  cases h : r.group <;> simp [matchesOf, markCount, h]

theorem length_searchChars {r : PlainRegex} {cs : List Char} {ms : List String}
    (h : r.searchChars cs = some ms) : ms.length = r.markCount := by
  induction cs with
  | nil =>
    unfold searchChars at h
    split_ifs at h
    cases h
    exact r.length_matchesOf []
  | cons c cs ih =>
    unfold searchChars at h
    split_ifs at h
    · cases h
      exact r.length_matchesOf _
    · exact ih h

theorem length_fullMatchChars {r : PlainRegex} {cs : List Char} {ms : List String}
    (h : r.fullMatchChars cs = some ms) : ms.length = r.markCount := by
  simp only [fullMatchChars] at h
  split_ifs at h
  all_goals
    cases h
    exact r.length_matchesOf _

end PlainRegex

def plainHost : Host PlainRegex where
  compile := PlainRegex.compile
  markCount := PlainRegex.markCount
  search r s := r.searchChars s.toList
  fullMatch r s := r.fullMatchChars s.toList
  formatTime _ := "Thu Jan  1 00:00:00 1970 UTC"
  length_search := PlainRegex.length_searchChars
  length_fullMatch := PlainRegex.length_fullMatchChars

/-- The configuration that some files give, empty if they are not accepted. -/
def plainRules (roots : List XMLNode) : RuleCfg PlainRegex :=
  (parseFiles plainHost roots).toOption.getD {}

theorem exists_ok_of_isOk {α : Type} {x : Except String α} (h : x.isOk = true) :
    ∃ a, x = .ok a := by
  cases x with
  | error what => simp [Except.isOk, Except.toBool] at h
  | ok a => exact ⟨a, rfl⟩

theorem plainRules_eq {roots : List XMLNode} (h : (parseFiles plainHost roots).isOk = true) :
    parseFiles plainHost roots = .ok (plainRules roots) := by
  obtain ⟨rules, hrules⟩ := exists_ok_of_isOk h
  rw [plainRules, hrules]
  rfl

end Ctguard
