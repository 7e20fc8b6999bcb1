import Ctguard.LogfileDelivery
import Ctguard.Text
import Mathlib.Algebra.Group.Int.Defs
import Mathlib.Algebra.Group.Nat.Defs
import Mathlib.Data.List.Forall2

/-!
# The state file of the log scanner

`save_state` writes a line for every entry, with the path in quotes, the inode and the position.
`get_state` cuts a line at the second quote it finds and reads the numbers with a stream. It looks
neither at the first character of the line nor at the one behind the path, and not behind the
position.
-/

namespace Ctguard.StateFile

open LogfileTask

/-- A path, an inode and a position. -/
abbrev Entry := String × UInt64 × ℤ

section Reading

/-- `std::string::find` of a character from an offset on. -/
def find (line : List Char) (c : Char) (offset : ℕ) : Option ℕ :=
  ((line.drop offset).findIdx? (· = c)).map (· + offset)

/-- `std::string::substr` up to the end, which throws behind the end. -/
def substr (line : List Char) (pos : ℕ) : Except String (List Char) :=
  if line.length < pos then .error "basic_string::substr" else .ok (line.drop pos)

/-- The extraction of an unsigned number of 64 bits, with what is left in the stream. It reads
like `std::stoul`. -/
def extract (s : List Char) : Option (ℕ × List Char) :=
  match stoul s with
  | .ok (n, pos) => some (n, s.drop pos)
  | .error _ => none

/-- The position of a number of 64 bits: it is taken as a signed one. -/
def posType (n : ℕ) : ℤ := if n < 2 ^ 63 then n else n - 2 ^ 64

/-- The numbers of a line. A section that cannot be read is logged, and the line left out. -/
def readNumbers (rest : List Char) : Option (UInt64 × ℤ) :=
  match extract rest with
  | some (inode, ',' :: more) =>
    match extract more with
    | some (pos, _) => some (.ofNat inode, posType pos)
    | none => none
  | _ => none

/-- The entry of a line that is not empty. -/
def readLine (line : List Char) : Except String (Option Entry) :=
  match find line '"' 1 with
  | none => .ok none
  | some pathpos =>
    let file := String.ofList ((line.drop 1).take (pathpos - 1))
    match substr line (pathpos + 2) with
    | .error what => .error what
    | .ok rest => .ok ((readNumbers rest).map fun numbers => (file, numbers))

/-- The loop over the lines. -/
def readLoop (st : InputStream Char) (line : List Char) (state : List Entry) :
    Except String (List Entry) :=
  if _h : st.failbit = true then .ok state
  else
    let got := st.getline '\n' line
    if got.2.failbit = true then .ok state
    else if got.1 = [] then readLoop got.2 got.1 state
    else
      match readLine got.1 with
      | .error what => .error what
      | .ok none => readLoop got.2 got.1 state
      | .ok (some e) => readLoop got.2 got.1 (state ++ [e])
termination_by st.fuel
decreasing_by all_goals exact st.getline_fuel_lt '\n' line (by simpa using _h)

/-- A state file that cannot be opened is ignored. -/
def getState : Option (List Char) → Except String (List Entry)
  | none => .ok []
  | some data => readLoop { data := data } [] []

end Reading

section Writing

def entryLine (e : Entry) : List Char :=
  '"' :: e.1.toList ++ ['"', ','] ++ (toString e.2.1.toNat).toList ++ ',' :: (toString e.2.2).toList

/-- What is saved of a file. -/
def savedEntry (ls : Logfile) : Entry := (ls.path, ls.inode, ls.position)

def savedText (logStates : List Logfile) : List Char :=
  logStates.flatMap fun ls => entryLine (savedEntry ls) ++ ['\n']

/-- The state file after the call. The new one is written under another name first. -/
def saveState (opened renamed : Bool) (old : Option (List Char)) (logStates : List Logfile) :
    Option (List Char) :=
  if opened && renamed then some (savedText logStates) else old

end Writing

section Lines

/-- The entries of some lines, up to the first that throws. -/
def readLines : List (List Char) → Except String (List Entry)
  | [] => .ok []
  | line :: lines => do
    let e ← readLine line
    let es ← readLines lines
    return e.toList ++ es

theorem readLines_cons_error {line : List Char} {lines : List (List Char)} {what : String}
    (h : readLine line = .error what) : readLines (line :: lines) = .error what := by
  rw [readLines, h]
  rfl

theorem readLines_cons_ok {line : List Char} {lines : List (List Char)} {e : Option Entry}
    (h : readLine line = .ok e) :
    readLines (line :: lines) = (readLines lines).map (e.toList ++ ·) := by
  rw [readLines, h]
  cases readLines lines <;> rfl

theorem readLoop_eq {st : InputStream Char} (hgood : st.good = true) (line : List Char)
    (state : List Entry) :
    readLoop st line state = (readLines (linesRead st.rest)).map (state ++ ·) := by
  induction hrest : st.rest using item_induction '\n' generalizing st line state with
  | item item more hitem ih =>
    obtain ⟨hmore, hgood'⟩ := InputStream.rest_advance hrest hgood
    have hfail := InputStream.not_failbit_of_good hgood'
    have hnext : ∀ state', readLoop { st with pos := st.pos + item.length + 1 } item state' =
        (readLines (linesRead more)).map (state' ++ ·) := fun state' => ih hgood' _ _ hmore
    rw [readLoop, dif_neg (InputStream.not_failbit_of_good hgood)]
    simp only [InputStream.getline_item hgood hitem hrest, if_neg hfail, hnext]
    rw [linesRead_item hitem]
    by_cases hempty : item = []
    · rw [if_pos hempty, if_pos hempty, List.nil_append]
    rw [if_neg hempty, if_neg hempty, List.singleton_append]
    cases hline : readLine item with
    | error what => rw [readLines_cons_error hline]; rfl
    | ok e =>
      rw [readLines_cons_ok hline]
      cases e with
      | none => cases readLines (linesRead more) <;> rfl
      | some e =>
        cases readLines (linesRead more) with
        | error what => rfl
        | ok es => simp [Except.map]
  | last rest hlast =>
    subst hrest
    rw [readLoop, dif_neg (InputStream.not_failbit_of_good hgood)]
    simp only [InputStream.getline_last hgood hlast]
    rw [linesRead_of_notMem hlast]
    by_cases hempty : st.rest = []
    · simp [hempty, readLines, Except.map]
    have hopen : st.rest.isEmpty = false := by simpa using hempty
    have hend : ∀ state', readLoop { st with
        pos := st.pos + st.rest.length, eofbit := true, failbit := false } st.rest state' =
          .ok state' := by
      intro state'
      rw [readLoop]
      simp [InputStream.getline, InputStream.good]
    simp only [hopen, Bool.false_eq_true, if_false, if_neg hempty, hend]
    cases hline : readLine st.rest with
    | error what => rw [readLines_cons_error hline]; rfl
    | ok e =>
      rw [readLines_cons_ok hline]
      cases e <;> simp [readLines, Except.map]

theorem getState_eq (data : List Char) : getState (some data) = readLines (linesRead data) := by
  rw [getState, readLoop_eq (by rfl)]
  have hrest : ({ data := data } : InputStream Char).rest = data := rfl
  rw [hrest]
  cases readLines (linesRead data) <;> rfl

end Lines

section Numbers

/-- Decimal digits of a number. -/
def Decimal (ds : List Char) (n : ℕ) : Prop :=
  ds ≠ [] ∧ (∀ c ∈ ds, c.isDigit = true) ∧ digitsValue ds = n

/-- The same with a sign, if the number is negative. -/
def SignedDecimal (ds : List Char) (p : ℤ) : Prop :=
  (Decimal ds p.toNat ∧ 0 ≤ p) ∨ ∃ ds', ds = '-' :: ds' ∧ Decimal ds' (-p).toNat ∧ p ≤ 0

/-- The values of `std::streamoff`. -/
def IsOffset (p : ℤ) : Prop := -2 ^ 63 ≤ p ∧ p < 2 ^ 63

theorem digitsValue_toDigits (n : ℕ) : digitsValue (Nat.toDigits 10 n) = n := by
  rw [digitsValue, ← Nat.ofDigitChars_eq_foldl, Nat.ofDigitChars_ten_toDigits]

theorem decimal_toString (n : ℕ) : Decimal (toString n).toList n := by
  rw [show toString n = n.repr from rfl, Nat.toList_repr]
  exact ⟨Nat.toDigits_ne_nil, fun c hc => Nat.isDigit_of_mem_toDigits (by decide) (by decide) hc,
    digitsValue_toDigits n⟩

theorem signedDecimal_toString (p : ℤ) : SignedDecimal (toString p).toList p := by
  cases p with
  | ofNat n => exact .inl ⟨decimal_toString n, Int.natCast_nonneg n⟩
  | negSucc n =>
    refine .inr ⟨(toString (n + 1)).toList, ?_, decimal_toString (n + 1), by omega⟩
    rw [Int.toString_eq_repr, Int.repr_eq_if, if_neg (by omega), String.toList_append]
    rfl

/-- No digit continues a number. -/
def Stops (more : List Char) : Prop := ∀ c, more.head? = some c → c.isDigit = false

theorem takeWhile_digits {ds more : List Char} (hds : ∀ c ∈ ds, c.isDigit = true)
    (hmore : Stops more) : (ds ++ more).takeWhile Char.isDigit = ds := by
  rw [List.takeWhile_append_of_pos hds]
  cases more with
  | nil => simp
  | cons c more =>
    rw [List.takeWhile_cons_of_neg (by simp [hmore c rfl]), List.append_nil]

theorem dropWhile_digits {ds more : List Char} (hds : ∀ c ∈ ds, c.isDigit = true)
    (hmore : Stops more) : (ds ++ more).dropWhile Char.isDigit = more := by
  have hcut := List.takeWhile_append_dropWhile (p := Char.isDigit) (l := ds ++ more)
  rw [takeWhile_digits hds hmore] at hcut
  exact List.append_cancel_left hcut

theorem stops_dropWhile (s : List Char) : Stops (s.dropWhile Char.isDigit) := by
  intro c hc
  have hnot := List.head?_dropWhile_not Char.isDigit s
  rw [hc] at hnot
  simpa using hnot

/-- The signs that a stream takes in front of a number, or none. -/
def signs : List (List Char) := [[], ['+'], ['-']]

theorem exists_sign (s : List Char) : ∃ sign ∈ signs, s = sign ++ unsigned s := by
  rw [unsigned.eq_def]
  split
  · exact ⟨['-'], by decide, rfl⟩
  · exact ⟨['+'], by decide, rfl⟩
  · exact ⟨[], by decide, rfl⟩

theorem head_digit {sign ds : List Char} {n : ℕ} (hsign : sign ∈ signs) (h : Decimal ds n)
    (more : List Char) : unsigned (sign ++ (ds ++ more)) = ds ++ more ∧
      (sign ++ (ds ++ more)).dropWhile isSpace = sign ++ (ds ++ more) := by
  obtain ⟨c, ds', rfl⟩ := List.exists_cons_of_ne_nil h.1
  have hc : c.isDigit = true := h.2.1 c List.mem_cons_self
  simp only [signs, List.mem_cons, List.not_mem_nil, or_false] at hsign
  rcases hsign with rfl | rfl | rfl
  · exact ⟨unsigned_of_digit hc _, List.dropWhile_cons_of_neg (by simp [not_isSpace_of_isDigit hc])⟩
  · exact ⟨rfl, List.dropWhile_cons_of_neg (by decide)⟩
  · exact ⟨rfl, List.dropWhile_cons_of_neg (by decide)⟩

/-- The digits are looked for behind white space and a sign, and what does not continue them is
left. -/
theorem extract_eq (s : List Char) : extract s =
    let body := s.dropWhile isSpace
    let number := (unsigned body).takeWhile Char.isDigit
    if number = [] ∨ 2 ^ 64 ≤ digitsValue number then none
    else some (converted body (digitsValue number), (unsigned body).dropWhile Char.isDigit) := by
  obtain ⟨sign, -, hsign⟩ := exists_sign (s.dropWhile isSpace)
  rw [extract, stoul_eq]
  dsimp only
  generalize unsigned (s.dropWhile isSpace) = digits at hsign ⊢
  have hs : s = s.takeWhile isSpace ++ sign ++ digits.takeWhile Char.isDigit ++
      digits.dropWhile Char.isDigit := by
    conv_lhs => rw [← List.takeWhile_append_dropWhile (p := isSpace) (l := s), hsign,
      ← List.takeWhile_append_dropWhile (p := Char.isDigit) (l := digits)]
    simp
  have hread : s.length - digits.length + (digits.takeWhile Char.isDigit).length =
      (s.takeWhile isSpace ++ sign ++ digits.takeWhile Char.isDigit).length := by
    have hlength := congrArg List.length hs
    have hdigits := congrArg List.length
      (List.takeWhile_append_dropWhile (p := Char.isDigit) (l := digits))
    simp only [List.length_append] at hlength hdigits ⊢
    omega
  have hdrop : s.drop (s.takeWhile isSpace ++ sign ++ digits.takeWhile Char.isDigit).length =
      digits.dropWhile Char.isDigit := by
    have hleft := congrArg (List.drop (s.takeWhile isSpace ++ sign ++
      digits.takeWhile Char.isDigit).length) hs
    rwa [List.drop_left] at hleft
  rw [hread]
  by_cases hbad : digits.takeWhile Char.isDigit = [] ∨
      2 ^ 64 ≤ digitsValue (digits.takeWhile Char.isDigit)
  · rw [if_pos hbad, if_pos hbad]
  · rw [if_neg hbad, if_neg hbad]
    exact congrArg (fun rest => some (_, rest)) hdrop

/-- A number is read up to the character that does not continue it. -/
theorem extract_number {space sign ds more : List Char} {n : ℕ}
    (hspace : ∀ c ∈ space, isSpace c = true) (hsign : sign ∈ signs) (h : Decimal ds n)
    (hn : n < 2 ^ 64) (hmore : Stops more) :
    extract (space ++ (sign ++ (ds ++ more))) =
      some (converted (sign ++ (ds ++ more)) n, more) := by
  obtain ⟨hunsigned, hbody⟩ := head_digit hsign h more
  obtain ⟨hne, hdigits, rfl⟩ := h
  rw [extract_eq]
  simp only [List.dropWhile_append_of_pos hspace, hbody, hunsigned,
    takeWhile_digits hdigits hmore, dropWhile_digits hdigits hmore]
  rw [if_neg (not_or.mpr ⟨hne, Nat.not_le.mpr hn⟩)]

theorem extract_decimal {ds : List Char} {n : ℕ} (h : Decimal ds n) (hn : n < 2 ^ 64)
    {more : List Char} (hmore : Stops more) : extract (ds ++ more) = some (n, more) := by
  have hread := @extract_number [] [] ds more n (by simp) (by decide) h hn hmore
  simp only [List.nil_append] at hread
  rw [hread, converted, if_neg]
  obtain ⟨c, ds', rfl⟩ := List.exists_cons_of_ne_nil h.1
  have hc : c.isDigit = true := h.2.1 c List.mem_cons_self
  rintro ⟨⟩
  cases hc

theorem extract_negative {ds : List Char} {n : ℕ} (h : Decimal ds n) (hn : n < 2 ^ 64)
    {more : List Char} (hmore : Stops more) :
    extract ('-' :: ds ++ more) = some ((2 ^ 64 - n) % 2 ^ 64, more) :=
  @extract_number [] ['-'] ds more n (by simp) (by decide) h hn hmore

/-- A number as a stream reads it: white space, a sign, and decimal digits of a number below
`2 ^ 64`. -/
def Numeral (text : List Char) : Prop :=
  ∃ space, ∃ sign ∈ signs, ∃ ds n, text = space ++ (sign ++ ds) ∧
    (∀ c ∈ space, isSpace c = true) ∧ Decimal ds n ∧ n < 2 ^ 64

/-- A stream reads a numeral, as long as its digits go on. -/
theorem extract_eq_some_iff {s more : List Char} : (∃ n, extract s = some (n, more)) ↔
    ∃ text, Numeral text ∧ Stops more ∧ s = text ++ more := by
  constructor
  · rintro ⟨n, h⟩
    obtain ⟨sign, hmem, hsign⟩ := exists_sign (s.dropWhile isSpace)
    rw [extract_eq] at h
    dsimp only at h
    generalize unsigned (s.dropWhile isSpace) = digits at hsign h
    split at h
    · cases h
    · rename_i hgood
      rw [not_or, Nat.not_le] at hgood
      obtain ⟨-, rfl⟩ := Prod.mk.inj (Option.some.inj h)
      refine ⟨_, ⟨s.takeWhile isSpace, sign, hmem, digits.takeWhile Char.isDigit, _, rfl, ?_,
        ⟨hgood.1, ?_, rfl⟩, hgood.2⟩, stops_dropWhile digits, ?_⟩
      · exact fun c hc => List.mem_takeWhile_imp hc
      · exact fun c hc => List.mem_takeWhile_imp hc
      · rw [List.append_assoc, List.append_assoc, List.takeWhile_append_dropWhile, ← hsign,
          List.takeWhile_append_dropWhile]
  · rintro ⟨text, ⟨space, sign, hsign, ds, n, rfl, hspace, h, hn⟩, hmore, rfl⟩
    exact ⟨_, by simpa using extract_number hspace hsign h hn hmore⟩

end Numbers

section WellFormed

/-- The line `"path",inode,position` of an entry. Leading zeros are allowed. -/
def Reads (line : List Char) (e : Entry) : Prop :=
  '"' ∉ e.1.toList ∧ IsOffset e.2.2 ∧ ∃ inode position,
    line = '"' :: e.1.toList ++ '"' :: ',' :: inode ++ ',' :: position ∧
      Decimal inode e.2.1.toNat ∧ SignedDecimal position e.2.2

def WellFormed (line : List Char) : Prop := ∃ e, Reads line e

theorem reads_entryLine {e : Entry} (hpath : '"' ∉ e.1.toList) (hposition : IsOffset e.2.2) :
    Reads (entryLine e) e :=
  ⟨hpath, hposition, _, _, by simp [entryLine], decimal_toString _, signedDecimal_toString _⟩

theorem posType_of_nonneg {p : ℤ} (h : IsOffset p) (hp : 0 ≤ p) : posType p.toNat = p := by
  have hlt := h.2
  rw [posType, if_pos (by omega)]
  omega

theorem posType_of_nonpos {p : ℤ} (h : IsOffset p) (hp : p ≤ 0) :
    posType ((2 ^ 64 - (-p).toNat) % 2 ^ 64) = p := by
  have hle := h.1
  rcases Int.lt_or_eq_of_le hp with hlt | rfl
  · rw [Nat.mod_eq_of_lt (by omega), posType, if_neg (by omega)]
    omega
  · rfl

theorem extract_signedDecimal {ds : List Char} {p : ℤ} (h : SignedDecimal ds p)
    (hp : IsOffset p) : ∃ n, extract ds = some (n, []) ∧ posType n = p := by
  have hstops : Stops [] := fun c hc => by cases hc
  have hle := hp.1
  have hlt := hp.2
  rcases h with ⟨hds, hnonneg⟩ | ⟨ds, rfl, hds, hnonpos⟩
  · have hread := extract_decimal hds (by omega) hstops
    rw [List.append_nil] at hread
    exact ⟨_, hread, posType_of_nonneg hp hnonneg⟩
  · have hread := extract_negative hds (by omega) hstops
    rw [List.append_nil] at hread
    exact ⟨_, hread, posType_of_nonpos hp hnonpos⟩

theorem readNumbers_of_reads {inode position : List Char} {n : UInt64} {p : ℤ}
    (hinode : Decimal inode n.toNat) (hposition : SignedDecimal position p) (hp : IsOffset p) :
    readNumbers (inode ++ ',' :: position) = some (n, p) := by
  have hstops : Stops (',' :: position) := by
    rintro c ⟨⟩
    rfl
  obtain ⟨m, hread, hm⟩ := extract_signedDecimal hposition hp
  rw [readNumbers, extract_decimal hinode n.toNat_lt hstops]
  simp [hread, hm]

end WellFormed

section Cutting

theorem find_of_notMem {line : List Char} (h : '"' ∉ line.drop 1) : find line '"' 1 = none := by
  rw [find, Option.map_eq_none_iff, List.findIdx?_eq_none_iff]
  intro c hc
  simpa using ne_of_mem_of_not_mem hc h

theorem find_append {c : Char} {path more : List Char} (h : '"' ∉ path) :
    find (c :: path ++ '"' :: more) '"' 1 = some (path.length + 1) := by
  have hidx : (path ++ '"' :: more).findIdx? (fun x => x = '"') = some path.length := by
    rw [List.findIdx?_append, List.findIdx?_eq_none_iff.mpr]
    · simp [List.findIdx?_cons]
    · intro x hx
      simpa using ne_of_mem_of_not_mem hx h
  rw [find, List.cons_append, List.drop_one, List.tail_cons, hidx]
  rfl

theorem readLine_of_notMem {line : List Char} (h : '"' ∉ line.drop 1) :
    readLine line = .ok none := by
  rw [readLine, find_of_notMem h]

/-- A line that ends with its second quote is cut behind its end. -/
theorem readLine_ends {c : Char} {path : List Char} (h : '"' ∉ path) :
    readLine (c :: path ++ ['"']) = .error "basic_string::substr" := by
  rw [readLine, find_append h]
  simp [substr]

/-- The character behind the path is skipped. -/
theorem readLine_append {c d : Char} {path rest : List Char} (h : '"' ∉ path) :
    readLine (c :: path ++ '"' :: d :: rest) =
      .ok ((readNumbers rest).map fun numbers => (String.ofList path, numbers)) := by
  have hlength : ¬ (c :: path ++ '"' :: d :: rest).length < path.length + 1 + 2 := by
    simp only [List.length_append, List.length_cons]
    omega
  have hrest : (c :: path ++ '"' :: d :: rest).drop (path.length + 1 + 2) = rest := by
    rw [show c :: path ++ '"' :: d :: rest = (c :: path ++ ['"', d]) ++ rest by simp]
    exact List.drop_left' (by simp)
  have hpath : ((c :: path ++ '"' :: d :: rest).drop 1).take (path.length + 1 - 1) = path := by
    simp
  rw [readLine, find_append h]
  simp only [substr, if_neg hlength, hrest, hpath]

/-- Every line that is not empty is of one of these kinds. -/
theorem line_cases {line : List Char} (hne : line ≠ []) : '"' ∉ line.drop 1 ∨
    (∃ c path, '"' ∉ path ∧ line = c :: path ++ ['"']) ∨
      ∃ c path d rest, '"' ∉ path ∧ line = c :: path ++ '"' :: d :: rest := by
  obtain ⟨c, text, rfl⟩ := List.exists_cons_of_ne_nil hne
  by_cases hmem : '"' ∈ text
  · obtain ⟨path, more, rfl, hpath⟩ := List.eq_append_cons_of_mem hmem
    cases more with
    | nil => exact .inr (.inl ⟨c, path, hpath, rfl⟩)
    | cons d rest => exact .inr (.inr ⟨c, path, d, rest, hpath, rfl⟩)
  · exact .inl hmem

theorem readLine_of_reads {line : List Char} {e : Entry} (h : Reads line e) :
    readLine line = .ok (some e) := by
  obtain ⟨hpath, hoffset, inode, position, rfl, hinode, hposition⟩ := h
  have hcut := @readLine_append '"' ',' e.1.toList (inode ++ ',' :: position) hpath
  rw [readNumbers_of_reads hinode hposition hoffset] at hcut
  simpa using hcut

end Cutting

section Damaged

/-- The second quote is the last character of the line. -/
def CutShort (line : List Char) : Prop := ∃ c path, '"' ∉ path ∧ line = c :: path ++ ['"']

/-- The line is like one of an entry as far as the reader looks: any character, a path, a quote,
any character, and two numerals with a comma between, the second of which ends somewhere. -/
def Accepted (line : List Char) : Prop :=
  ∃ c path d inode position more, '"' ∉ path ∧
    line = c :: path ++ '"' :: d :: (inode ++ ',' :: (position ++ more)) ∧
      Numeral inode ∧ Numeral position ∧ Stops more

theorem readNumbers_isSome_iff {rest : List Char} : (readNumbers rest).isSome = true ↔
    ∃ inode position more, rest = inode ++ ',' :: (position ++ more) ∧
      Numeral inode ∧ Numeral position ∧ Stops more := by
  constructor
  · intro h
    rw [readNumbers] at h
    split at h
    · rename_i n more hinode
      split at h
      · rename_i m last hposition
        obtain ⟨inode, hnumeral, -, rfl⟩ := extract_eq_some_iff.mp ⟨n, hinode⟩
        obtain ⟨position, hnumeral', hstops, rfl⟩ := extract_eq_some_iff.mp ⟨m, hposition⟩
        exact ⟨inode, position, last, rfl, hnumeral, hnumeral', hstops⟩
      · cases h
    · cases h
  · rintro ⟨inode, position, more, rfl, hinode, hposition, hstops⟩
    have hcomma : Stops (',' :: (position ++ more)) := by
      rintro c ⟨⟩
      rfl
    obtain ⟨n, hread⟩ := extract_eq_some_iff.mpr ⟨inode, hinode, hcomma, rfl⟩
    obtain ⟨m, hread'⟩ := extract_eq_some_iff.mpr ⟨position, hposition, hstops, rfl⟩
    simp [readNumbers, hread, hread']

theorem readLine_of_cutShort {line : List Char} (h : CutShort line) :
    readLine line = .error "basic_string::substr" := by
  obtain ⟨c, path, hpath, rfl⟩ := h
  exact readLine_ends hpath

theorem readLine_of_accepted {line : List Char} (h : Accepted line) :
    ∃ e, readLine line = .ok (some e) := by
  obtain ⟨c, path, d, inode, position, more, hpath, rfl, hnumerals⟩ := h
  obtain ⟨numbers, hnumbers⟩ := Option.isSome_iff_exists.mp
    (readNumbers_isSome_iff.mpr ⟨inode, position, more, rfl, hnumerals⟩)
  exact ⟨(String.ofList path, numbers), by rw [readLine_append hpath, hnumbers]; rfl⟩

/-- Any other line is left out. -/
theorem readLine_of_not {line : List Char} (hne : line ≠ []) (hcut : ¬ CutShort line)
    (haccepted : ¬ Accepted line) : readLine line = .ok none := by
  rcases line_cases hne with hquote | ⟨c, path, hpath, rfl⟩ | ⟨c, path, d, rest, hpath, rfl⟩
  · exact readLine_of_notMem hquote
  · exact absurd ⟨c, path, hpath, rfl⟩ hcut
  · rw [readLine_append hpath]
    cases hnumbers : readNumbers rest with
    | none => rfl
    | some numbers =>
      obtain ⟨inode, position, more, rfl, hnumerals⟩ := readNumbers_isSome_iff.mp
        (Option.isSome_iff_exists.mpr ⟨numbers, hnumbers⟩)
      exact absurd ⟨c, path, d, inode, position, more, hpath, rfl, hnumerals⟩ haccepted

theorem WellFormed.accepted {line : List Char} (h : WellFormed line) : Accepted line := by
  obtain ⟨e, hpath, hoffset, inode, position, rfl, hinode, hposition⟩ := h
  obtain ⟨inode', position', more, hrest, hnumerals⟩ := readNumbers_isSome_iff.mp
    (Option.isSome_iff_exists.mpr ⟨_, readNumbers_of_reads hinode hposition hoffset⟩)
  exact ⟨'"', e.1.toList, ',', inode', position', more, hpath, by simp [← hrest], hnumerals⟩

theorem linesRead_ne_nil {data line : List Char} (h : line ∈ linesRead data) : line ≠ [] := by
  rw [linesRead] at h
  rcases List.mem_append.mp h with h | h
  · simpa using (List.mem_filter.mp h).2
  · split at h
    · cases h
    · rename_i hopen
      rwa [List.mem_singleton.mp h]

open Classical in
/-- The file is read without an exception, to one entry for each well-formed line, in order. -/
def Recovers (data : List Char) : Prop :=
  ∃ es, getState (some data) = .ok es ∧
    List.Forall₂ Reads ((linesRead data).filter fun line => WellFormed line) es

theorem readLines_error {lines : List (List Char)} (h : ∃ line ∈ lines, CutShort line) :
    ∃ what, readLines lines = .error what := by
  induction lines with
  | nil => simp at h
  | cons line lines ih =>
    cases hline : readLine line with
    | error what => exact ⟨what, readLines_cons_error hline⟩
    | ok e =>
      obtain ⟨bad, hmem, hcut⟩ := h
      rcases List.mem_cons.mp hmem with rfl | hmem
      · rw [readLine_of_cutShort hcut] at hline
        cases hline
      · obtain ⟨what, hwhat⟩ := ih ⟨bad, hmem, hcut⟩
        exact ⟨what, by rw [readLines_cons_ok hline, hwhat]; rfl⟩

open Classical in
/-- Without such a line there is an entry for each line that is accepted. -/
theorem readLines_length {lines : List (List Char)}
    (h : ∀ line ∈ lines, line ≠ [] ∧ ¬ CutShort line) :
    ∃ es, readLines lines = .ok es ∧
      es.length = (lines.filter fun line => Accepted line).length := by
  induction lines with
  | nil => exact ⟨[], rfl, rfl⟩
  | cons line lines ih =>
    obtain ⟨⟨hne, hcut⟩, hlines⟩ := List.forall_mem_cons.mp h
    obtain ⟨es, hes, hlength⟩ := ih hlines
    by_cases haccepted : Accepted line
    · obtain ⟨e, hline⟩ := readLine_of_accepted haccepted
      refine ⟨e :: es, by rw [readLines_cons_ok hline, hes]; rfl, ?_⟩
      rw [List.filter_cons_of_pos (by simpa using haccepted), List.length_cons, hlength,
        List.length_cons]
    · have hline := readLine_of_not hne hcut haccepted
      refine ⟨es, by rw [readLines_cons_ok hline, hes]; rfl, ?_⟩
      rw [List.filter_cons_of_neg (by simpa using haccepted), hlength]

open Classical in
theorem readLines_reads {lines : List (List Char)} (h : ∀ line ∈ lines, line ≠ [] ∧
    ¬ CutShort line ∧ (Accepted line → WellFormed line)) :
    ∃ es, readLines lines = .ok es ∧
      List.Forall₂ Reads (lines.filter fun line => WellFormed line) es := by
  induction lines with
  | nil => exact ⟨[], rfl, .nil⟩
  | cons line lines ih =>
    obtain ⟨⟨hne, hcut, haccepted⟩, hlines⟩ := List.forall_mem_cons.mp h
    obtain ⟨es, hes, hreads⟩ := ih hlines
    by_cases hformed : WellFormed line
    · obtain ⟨e, he⟩ := hformed
      refine ⟨e :: es, by rw [readLines_cons_ok (readLine_of_reads he), hes]; rfl, ?_⟩
      rw [List.filter_cons_of_pos (by simpa using ⟨e, he⟩)]
      exact .cons he hreads
    · have hline := readLine_of_not hne hcut fun h => hformed (haccepted h)
      refine ⟨es, by rw [readLines_cons_ok hline, hes]; rfl, ?_⟩
      rw [List.filter_cons_of_neg (by simpa using hformed)]
      exact hreads

/-- A damaged file is recovered exactly if no line ends with its second quote and none is
accepted that is not well-formed. -/
theorem recovers_iff (data : List Char) : Recovers data ↔
    ∀ line ∈ linesRead data, ¬ CutShort line ∧ (Accepted line → WellFormed line) := by
  classical
  constructor
  · rintro ⟨es, hes, hreads⟩
    rw [getState_eq] at hes
    have hcut : ∀ line ∈ linesRead data, ¬ CutShort line := by
      intro line hline hcut
      obtain ⟨what, hwhat⟩ := readLines_error ⟨line, hline, hcut⟩
      rw [hwhat] at hes
      cases hes
    obtain ⟨es', hes', hlength⟩ :=
      readLines_length fun line hline => ⟨linesRead_ne_nil hline, hcut line hline⟩
    obtain rfl : es' = es := Except.ok.inj (hes'.symm.trans hes)
    -- there are as many accepted lines as well-formed ones, which are among them
    have hsub : ((linesRead data).filter fun line => Accepted line).filter
        (fun line => WellFormed line) = (linesRead data).filter fun line => WellFormed line := by
      rw [List.filter_filter]
      refine List.filter_congr fun line _ => ?_
      by_cases hformed : WellFormed line
      · simp [hformed, hformed.accepted]
      · simp [hformed]
    have hall := List.filter_eq_self.mp <| List.Sublist.eq_of_length List.filter_sublist <| by
      rw [hsub, hreads.length_eq, hlength]
    refine fun line hline => ⟨hcut line hline, fun haccepted => ?_⟩
    simpa using hall line (List.mem_filter.mpr ⟨hline, by simpa using haccepted⟩)
  · intro h
    obtain ⟨es, hes, hreads⟩ := readLines_reads fun line hline =>
      ⟨linesRead_ne_nil hline, h line hline⟩
    exact ⟨es, (getState_eq data).trans hes, hreads⟩

/-- A line that is nothing but a quoted path ends the thread. -/
theorem not_recovers_cutShort : ¬ Recovers "\"app.log\"".toList := by
  rintro ⟨es, hes, -⟩
  rw [getState_eq] at hes
  have herror : readLines (linesRead "\"app.log\"".toList) = .error "basic_string::substr" := by
    decide +kernel
  rw [herror] at hes
  cases hes

end Damaged

section RoundTrip

variable {logStates : List Logfile}

theorem Decimal.notMem {ds : List Char} {n : ℕ} (h : Decimal ds n) {c : Char}
    (hc : c.isDigit = false) : c ∉ ds := by
  intro hmem
  rw [h.2.1 c hmem] at hc
  cases hc

theorem SignedDecimal.notMem {ds : List Char} {p : ℤ} (h : SignedDecimal ds p) {c : Char}
    (hc : c.isDigit = false) (hminus : c ≠ '-') : c ∉ ds := by
  rcases h with ⟨hds, -⟩ | ⟨ds, rfl, hds, -⟩
  · exact hds.notMem hc
  · exact List.not_mem_cons_of_ne_of_not_mem hminus (hds.notMem hc)

theorem newline_notMem_entryLine {e : Entry} (h : '\n' ∉ e.1.toList) : '\n' ∉ entryLine e := by
  have hinode := (decimal_toString e.2.1.toNat).notMem (show ('\n').isDigit = false by decide)
  have hposition := (signedDecimal_toString e.2.2).notMem
    (show ('\n').isDigit = false by decide) (by decide)
  simp only [entryLine, List.mem_append, List.mem_cons, List.not_mem_nil, or_false, not_or]
  exact ⟨⟨⟨⟨by decide, h⟩, by decide, by decide⟩, hinode⟩, by decide, hposition⟩

/-- The lines of a saved file are those of the entries, if no path goes over a line. -/
theorem linesRead_savedText (h : ∀ ls ∈ logStates, '\n' ∉ ls.path.toList) :
    linesRead (savedText logStates) = logStates.map fun ls => entryLine (savedEntry ls) := by
  induction logStates with
  | nil => rfl
  | cons ls logStates ih =>
    obtain ⟨hls, hmore⟩ := List.forall_mem_cons.mp h
    have hline : '\n' ∉ entryLine (savedEntry ls) := newline_notMem_entryLine hls
    have hne : entryLine (savedEntry ls) ≠ [] := by simp [entryLine]
    have htext : savedText (ls :: logStates) =
        entryLine (savedEntry ls) ++ '\n' :: savedText logStates := by
      simp [savedText]
    rw [htext, linesRead_item hline, if_neg hne, ih hmore]
    rfl

theorem newline_notMem_linesRead {data line : List Char} (h : line ∈ linesRead data) :
    '\n' ∉ line := by
  induction data using item_induction '\n' with
  | item item more hitem ih =>
    rw [linesRead_item hitem] at h
    rcases List.mem_append.mp h with h | h
    · split at h
      · cases h
      · rwa [List.mem_singleton.mp h]
    · exact ih h
  | last data hlast =>
    rw [linesRead_of_notMem hlast] at h
    split at h
    · cases h
    · rwa [List.mem_singleton.mp h]

/-- A path that is read has neither a quote nor a line break. -/
theorem path_of_readLine {line : List Char} {e : Entry} (hline : '\n' ∉ line) (hne : line ≠ [])
    (h : readLine line = .ok (some e)) : '"' ∉ e.1.toList ∧ '\n' ∉ e.1.toList := by
  rcases line_cases hne with hquote | ⟨c, path, hpath, rfl⟩ | ⟨c, path, d, rest, hpath, rfl⟩
  · rw [readLine_of_notMem hquote] at h
    cases h
  · rw [readLine_ends hpath] at h
    cases h
  · rw [readLine_append hpath, Except.ok.injEq, Option.map_eq_some_iff] at h
    obtain ⟨numbers, -, rfl⟩ := h
    rw [String.toList_ofList]
    exact ⟨hpath, fun hmem => hline (by simp [hmem])⟩

theorem paths_of_readLines {lines : List (List Char)} {es : List Entry}
    (hlines : ∀ line ∈ lines, '\n' ∉ line ∧ line ≠ []) (h : readLines lines = .ok es) :
    ∀ e ∈ es, '"' ∉ e.1.toList ∧ '\n' ∉ e.1.toList := by
  induction lines generalizing es with
  | nil =>
    cases h
    simp
  | cons line lines ih =>
    obtain ⟨⟨hline, hne⟩, hmore⟩ := List.forall_mem_cons.mp hlines
    rw [readLines] at h
    obtain ⟨e, hread, h⟩ := bind_eq_ok.mp h
    obtain ⟨es', hes', h⟩ := bind_eq_ok.mp h
    obtain rfl := Except.ok.inj h
    intro e' he'
    rcases List.mem_append.mp he' with he' | he'
    · rw [Option.mem_toList.mp he'] at hread
      exact path_of_readLine hline hne hread
    · exact ih hmore hes' e' he'

theorem readLines_map {es : List Entry}
    (h : ∀ e ∈ es, '"' ∉ e.1.toList ∧ IsOffset e.2.2) : readLines (es.map entryLine) = .ok es := by
  induction es with
  | nil => rfl
  | cons e es ih =>
    obtain ⟨⟨hpath, hposition⟩, hmore⟩ := List.forall_mem_cons.mp h
    rw [List.map_cons, readLines_cons_ok (readLine_of_reads (reads_entryLine hpath hposition)),
      ih hmore]
    rfl

/-- What is saved is restored exactly if no path has a quote or a line break in it. -/
theorem getState_saveState_iff (old : Option (List Char)) (logStates : List Logfile)
    (hposition : ∀ ls ∈ logStates, IsOffset ls.position) :
    getState (saveState true true old logStates) = .ok (logStates.map savedEntry) ↔
      ∀ ls ∈ logStates, '"' ∉ ls.path.toList ∧ '\n' ∉ ls.path.toList := by
  have hsaved : saveState true true old logStates = some (savedText logStates) := rfl
  rw [hsaved, getState_eq]
  constructor
  · intro h ls hls
    refine paths_of_readLines ?_ h (savedEntry ls) (List.mem_map.mpr ⟨ls, hls, rfl⟩)
    exact fun line hline => ⟨newline_notMem_linesRead hline, linesRead_ne_nil hline⟩
  · intro h
    have hlines : linesRead (savedText logStates) = (logStates.map savedEntry).map entryLine := by
      rw [linesRead_savedText fun ls hls => (h ls hls).2, List.map_map]
      rfl
    rw [hlines]
    refine readLines_map fun e he => ?_
    obtain ⟨ls, hls, rfl⟩ := List.mem_map.mp he
    exact ⟨(h ls hls).1, hposition ls hls⟩

/-- An entry at the position that could not be read back. -/
def lostPosition : Logfile where
  config := { path := "/var/log/app.log" }
  fd := 3
  position := -1
  inode := 18446744073709551615
  size := 10

theorem getState_saveState_lostPosition :
    getState (saveState true true none [lostPosition]) = .ok [savedEntry lostPosition] ↔
      ∀ ls ∈ [lostPosition], '"' ∉ ls.path.toList ∧ '\n' ∉ ls.path.toList :=
  getState_saveState_iff none [lostPosition] (by simp [lostPosition, IsOffset])

def quotedPath : Logfile where
  config := { path := "/var/log/a\"b.log" }
  fd := 3
  position := 10
  inode := 7
  size := 10

/-- The path of the second line ends at the quote in it, and then no inode is found. -/
theorem getState_saveState_quotedPath :
    getState (saveState true true none [lostPosition, quotedPath]) ≠
      .ok ([lostPosition, quotedPath].map savedEntry) := by
  rw [show saveState true true none [lostPosition, quotedPath] =
    some (savedText [lostPosition, quotedPath]) from rfl, getState_eq]
  decide +kernel

end RoundTrip

end Ctguard.StateFile
