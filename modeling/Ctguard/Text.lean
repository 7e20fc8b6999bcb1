import Mathlib.Algebra.Group.Nat.Defs
import Mathlib.Data.List.Basic

/-!
# Reading strings

The helpers that rule files and configurations are read with. A character of a
`String` stands for one byte of a `std::string`. Errors are the texts of the
exceptions that are thrown.
-/

namespace Ctguard

/-- Two steps that may throw succeed if both do. -/
theorem bind_eq_ok {ε α β : Type} {x : Except ε α} {f : α → Except ε β} {b : β} :
    x >>= f = .ok b ↔ ∃ a, x = .ok a ∧ f a = .ok b := by
  cases x <;> simp [bind, Except.bind]

/-- `std::isspace` in the C locale. -/
def isSpace (c : Char) : Bool := c ∈ [' ', '\t', '\n', '\x0b', '\x0c', '\r']

/-- Leading whitespace is removed while more than one character is left. -/
def trimFront : List Char → List Char
  | [] => []
  | [c] => [c]
  | c :: d :: cs => if isSpace c then trimFront (d :: cs) else c :: d :: cs

/-- Both ends of the string are trimmed, down to one character. -/
def trimChars (cs : List Char) : List Char := (trimFront (trimFront cs).reverse).reverse

def trim (s : String) : String := String.ofList (trimChars s.toList)

/-- The trimmed pieces of a comma-separated list. -/
def splitList (s : String) : List String :=
  (s.toList.splitOn ',').map fun piece => String.ofList (trimChars piece)

/-- The value of a string of digits. -/
def digitsValue (ds : List Char) : ℕ := ds.foldl (fun n c => 10 * n + (c.toNat - '0'.toNat)) 0

/-- `std::stoul`: the number and the position behind it. Leading whitespace and a sign
are accepted, and a number behind a minus sign is negated modulo `2 ^ 64`. -/
def stoul (s : List Char) : Except String (ℕ × ℕ) :=
  let body := s.dropWhile isSpace
  let digits := match body with
    | '-' :: ds => ds
    | '+' :: ds => ds
    | ds => ds
  let number := digits.takeWhile Char.isDigit
  let n := digitsValue number
  if number = [] ∨ 2 ^ 64 ≤ n then .error "stoul"
  else
    let value := if body.head? = some '-' then (2 ^ 64 - n) % 2 ^ 64 else n
    .ok (value, s.length - digits.length + number.length)

/-- What stands behind the sign. -/
def unsigned : List Char → List Char
  | '-' :: ds => ds
  | '+' :: ds => ds
  | ds => ds

theorem unsigned_of_digit {c : Char} (hc : c.isDigit = true) (ds : List Char) :
    unsigned (c :: ds) = c :: ds := by
  have hminus : c ≠ '-' := by
    rintro rfl
    cases hc
  have hplus : c ≠ '+' := by
    rintro rfl
    cases hc
  simp [unsigned, hminus, hplus]

theorem not_isSpace_of_isDigit {c : Char} (hc : c.isDigit = true) : isSpace c = false := by
  by_contra hspace
  rw [Bool.not_eq_false, isSpace, decide_eq_true_eq] at hspace
  simp only [List.mem_cons, List.not_mem_nil, or_false] at hspace
  rcases hspace with rfl | rfl | rfl | rfl | rfl | rfl
  all_goals cases hc

/-- The value of `std::stoul`: a number behind a minus sign is negated modulo `2 ^ 64`. -/
def converted (body : List Char) (n : ℕ) : ℕ :=
  if body.head? = some '-' then (2 ^ 64 - n) % 2 ^ 64 else n

theorem stoul_eq (s : List Char) : stoul s =
    let number := (unsigned (s.dropWhile isSpace)).takeWhile Char.isDigit
    if number = [] ∨ 2 ^ 64 ≤ digitsValue number then .error "stoul"
    else .ok (converted (s.dropWhile isSpace) (digitsValue number),
      s.length - (unsigned (s.dropWhile isSpace)).length + number.length) := rfl

/-- `parse_integral` of the rule files for the target type with the largest value `max`. -/
def parseIntegral (max : ℕ) (name content : String) : Except String ℕ :=
  match stoul content.toList with
  | .error what => .error ("Invalid " ++ name ++ " '" ++ content ++ "' given: " ++ what)
  | .ok (n, pos) =>
    if pos ≠ content.length then
      .error ("Invalid " ++ name ++ " '" ++ content ++ "' given: no full parse")
    else if max < n then
      .error ("Invalid " ++ name ++ " '" ++ content ++ "' given: value to big")
    else .ok n

/-- `libs::parse_integral`, which the configurations use. -/
def libsParseIntegral (max : ℕ) (content : String) : Except String ℕ :=
  match stoul content.toList with
  | .error what => .error ("parse error: " ++ what)
  | .ok (n, pos) =>
    if pos ≠ content.length then
      .error ("incomplete parse (" ++ toString pos ++ "/" ++ toString content.length ++ ")")
    else if max < n then .error ("value out of range (" ++ toString max ++ ")")
    else .ok n

/-- `parse_bool` of the rule files. -/
def parseBool (name content : String) : Except String Bool :=
  if content = "true" ∨ content = "TRUE" ∨ content = "True" then .ok true
  else if content = "false" ∨ content = "FALSE" ∨ content = "False" then .ok false
  else .error ("Invalid " ++ name ++ " bool value given: '" ++ content ++ "'")

/-- `libs::parse_bool`. -/
def libsParseBool (value : String) : Except String Bool :=
  if value = "true" ∨ value = "TRUE" then .ok true
  else if value = "false" ∨ value = "FALSE" then .ok false
  else .error "Invalid bool value"

end Ctguard
