import Ctguard.InterventionDaemon

/-!
# Numbers and durations

`parse_integral` means what a decimal numeral says, apart from some numerals of numbers below zero:
the conversion negates modulo `2 ^ 64`, and what comes out may fit the type. A duration is a product
of 32 bits, which may wrap around as well.
-/

namespace Ctguard

section Numerals

variable {s body ds : List Char} {n m v max : ℕ} {z : ℤ}

/-- Digits, and the number that they are read as. -/
def Digits (ds : List Char) (n : ℕ) : Prop :=
  ds ≠ [] ∧ (∀ c ∈ ds, c.isDigit = true) ∧ digitsValue ds = n

/-- A decimal numeral that may have a sign. -/
inductive Numeral : List Char → ℤ → Prop
  | plain {ds : List Char} {n : ℕ} (digits : Digits ds n) : Numeral ds n
  | plus {ds : List Char} {n : ℕ} (digits : Digits ds n) : Numeral ('+' :: ds) n
  | minus {ds : List Char} {n : ℕ} (digits : Digits ds n) : Numeral ('-' :: ds) (-n)

/-- The text is a numeral behind leading whitespace. -/
def Says (s : List Char) (z : ℤ) : Prop :=
  ∃ blanks body, s = blanks ++ body ∧ (∀ c ∈ blanks, isSpace c = true) ∧ Numeral body z

/-- The number is below zero, and negating it modulo `2 ^ 64` gives a value of the type. -/
def WrapsInto (max : ℕ) (s : List Char) : Prop :=
  ∃ k : ℕ, Says s (-k) ∧ 2 ^ 64 - max ≤ k ∧ k < 2 ^ 64

/-- No numeral starts with whitespace. -/
theorem Numeral.dropWhile_eq (h : Numeral body z) : body.dropWhile isSpace = body := by
  cases h with
  | plain digits =>
    obtain ⟨c, ds, rfl⟩ := List.exists_cons_of_ne_nil digits.1
    rw [List.dropWhile_cons_of_neg]
    simp [not_isSpace_of_isDigit (digits.2.1 c List.mem_cons_self)]
  | plus => exact List.dropWhile_cons_of_neg (by decide)
  | minus => exact List.dropWhile_cons_of_neg (by decide)

theorem says_iff_numeral : Says s z ↔ Numeral (s.dropWhile isSpace) z := by
  constructor
  · rintro ⟨blanks, body, rfl, hblanks, hbody⟩
    rwa [List.dropWhile_append_of_pos hblanks, hbody.dropWhile_eq]
  · intro h
    refine ⟨s.takeWhile isSpace, _, List.takeWhile_append_dropWhile.symm, ?_, h⟩
    exact fun c hc => List.mem_takeWhile_imp hc

/-- The number that digits say, with the sign in front of them. -/
def signed (body : List Char) (n : ℕ) : ℤ := if body.head? = some '-' then -n else n

theorem numeral_iff : Numeral body z ↔ ∃ n, Digits (unsigned body) n ∧ z = signed body n := by
  constructor
  · rintro (digits | digits | digits)
    · obtain ⟨c, ds, rfl⟩ := List.exists_cons_of_ne_nil digits.1
      have hc := digits.2.1 c List.mem_cons_self
      refine ⟨_, by rwa [unsigned_of_digit hc], ?_⟩
      rw [signed, if_neg]
      rintro ⟨⟩
      cases hc
    · exact ⟨_, digits, by simp [signed]⟩
    · exact ⟨_, digits, by simp [signed]⟩
  · rintro ⟨n, digits, rfl⟩
    revert digits
    rw [unsigned.eq_def]
    split
    · exact fun digits => .minus digits
    · exact fun digits => .plus digits
    · rename_i hminus _
      intro digits
      have hsigned : signed body n = n := by
        rw [signed, if_neg]
        rw [List.head?_eq_some_iff]
        rintro ⟨ds, rfl⟩
        exact hminus ds rfl
      rw [hsigned]
      exact .plain digits

theorem says_iff : Says s z ↔
    ∃ n, Digits (unsigned (s.dropWhile isSpace)) n ∧ z = signed (s.dropWhile isSpace) n :=
  says_iff_numeral.trans numeral_iff

theorem length_unsigned_le (body : List Char) : (unsigned body).length ≤ body.length := by
  rw [unsigned.eq_def]
  split
  · exact Nat.le_succ _
  · exact Nat.le_succ _
  · exact Nat.le_refl _

theorem length_digits_le (s : List Char) : (unsigned (s.dropWhile isSpace)).length ≤ s.length :=
  (length_unsigned_le _).trans (List.dropWhile_sublist _).length_le

theorem takeWhile_eq_self_iff_digits :
    (ds.takeWhile Char.isDigit).length = ds.length ↔ ∀ c ∈ ds, c.isDigit = true := by
  rw [← List.takeWhile_eq_self_iff]
  exact ⟨(List.takeWhile_prefix _).eq_of_length, fun h => by rw [h]⟩

/-- All of the string is read exactly if digits stand behind whitespace and a sign. -/
theorem stoul_full_iff : stoul s = .ok (v, s.length) ↔
    ∃ n, Digits (unsigned (s.dropWhile isSpace)) n ∧ n < 2 ^ 64 ∧
      v = converted (s.dropWhile isSpace) n := by
  have hle := length_digits_le s
  rw [stoul_eq]
  generalize s.dropWhile isSpace = body at hle ⊢
  have htake := @takeWhile_eq_self_iff_digits (unsigned body)
  constructor
  · intro h
    simp only at h
    split at h
    · cases h
    case isFalse hcond =>
      rw [not_or, Nat.not_le] at hcond
      rw [Except.ok.injEq, Prod.mk.injEq] at h
      have hdigits := htake.mp (by omega)
      rw [List.takeWhile_eq_self_iff.mpr hdigits] at hcond h
      exact ⟨_, ⟨hcond.1, hdigits, rfl⟩, hcond.2, h.1.symm⟩
  · rintro ⟨n, ⟨hne, hdigits, rfl⟩, hn, rfl⟩
    simp only
    rw [List.takeWhile_eq_self_iff.mpr hdigits, if_neg (not_or.mpr ⟨hne, Nat.not_le.mpr hn⟩),
      Nat.sub_add_cancel hle]

theorem parseIntegral_eq_ok {name content : String} : parseIntegral max name content = .ok n ↔
    stoul content.toList = .ok (n, content.toList.length) ∧ n ≤ max := by
  rw [parseIntegral, String.length_toList]
  cases stoul content.toList with
  | error what => simp
  | ok r =>
    obtain ⟨v, pos⟩ := r
    simp only [Except.ok.injEq, Prod.mk.injEq]
    split
    case isTrue hpos => simp [hpos]
    case isFalse hpos =>
      split
      case isTrue hmax =>
        simp only [reduceCtorEq, false_iff, not_and, Nat.not_le]
        rintro ⟨rfl, -⟩
        exact hmax
      case isFalse hmax =>
        rw [Except.ok.injEq]
        constructor
        · rintro rfl
          exact ⟨⟨rfl, not_not.mp hpos⟩, Nat.not_lt.mp hmax⟩
        · exact fun h => h.1.1

/-- The two versions differ in the texts of their exceptions. -/
theorem libsParseIntegral_eq_ok {name content : String} :
    libsParseIntegral max content = .ok n ↔ parseIntegral max name content = .ok n := by
  rw [libsParseIntegral, parseIntegral]
  cases stoul content.toList with
  | error what => simp
  | ok r =>
    simp only
    split
    · simp
    split
    · simp
    · rfl

theorem digits_unique (h : Digits ds n) (h' : Digits ds m) : n = m := h.2.2.symm.trans h'.2.2

/-- Without a minus sign, the number that is read is the number that is said. -/
theorem converted_iff_of_plus (hmax : max < 2 ^ 64) (hminus : body.head? ≠ some '-') :
    ((∃ m, Digits ds m ∧ m < 2 ^ 64 ∧ n = converted body m) ∧ n ≤ max) ↔
      (∃ m, Digits ds m ∧ (n : ℤ) = signed body m) ∧ n ≤ max := by
  simp only [converted, signed, if_neg hminus]
  constructor
  · rintro ⟨⟨m, digits, -, rfl⟩, hle⟩
    exact ⟨⟨_, digits, rfl⟩, hle⟩
  · rintro ⟨⟨m, digits, hm⟩, hle⟩
    have heq : n = m := by exact_mod_cast hm
    exact ⟨⟨m, digits, by omega, heq⟩, hle⟩

/-- With a minus sign, this is so for zero, and for the numbers whose negation is too large. -/
theorem converted_iff_of_minus (hmax : max < 2 ^ 64) (hminus : body.head? = some '-') :
    (∀ n, ((∃ m, Digits ds m ∧ m < 2 ^ 64 ∧ n = converted body m) ∧ n ≤ max) ↔
        (∃ m, Digits ds m ∧ (n : ℤ) = signed body m) ∧ n ≤ max) ↔
      ¬ ∃ k : ℕ, (∃ m, Digits ds m ∧ (-k : ℤ) = signed body m) ∧ 2 ^ 64 - max ≤ k ∧ k < 2 ^ 64 := by
  simp only [converted, signed, if_pos hminus]
  constructor
  · rintro h ⟨k, ⟨m, digits, hk⟩, hle, hlt⟩
    have heq : k = m := by omega
    subst heq
    have hmod : (2 ^ 64 - k) % 2 ^ 64 = 2 ^ 64 - k := Nat.mod_eq_of_lt (by omega)
    obtain ⟨⟨m, digits', hm⟩, -⟩ := (h (2 ^ 64 - k)).mp ⟨⟨k, digits, hlt, hmod.symm⟩, by omega⟩
    rw [digits_unique digits' digits] at hm
    omega
  · intro h n
    constructor
    · rintro ⟨⟨m, digits, hlt, rfl⟩, hle⟩
      refine ⟨⟨m, digits, ?_⟩, hle⟩
      rcases Nat.eq_zero_or_pos m with rfl | hpos
      · rfl
      · rw [Nat.mod_eq_of_lt (by omega)] at hle
        exact absurd ⟨m, ⟨m, digits, rfl⟩, by omega, hlt⟩ h
    · rintro ⟨⟨m, digits, hm⟩, hle⟩
      have hzero : m = 0 ∧ n = 0 := by omega
      obtain ⟨rfl, rfl⟩ := hzero
      exact ⟨⟨0, digits, by omega, rfl⟩, hle⟩

/-- Numbers mean what they say, unless one below zero wraps around into the type. -/
theorem parseIntegral_iff (hmax : max < 2 ^ 64) (name content : String) :
    (∀ n, (parseIntegral max name content = .ok n ↔ Says content.toList n ∧ n ≤ max) ∧
        (libsParseIntegral max content = .ok n ↔ Says content.toList n ∧ n ≤ max)) ↔
      ¬ WrapsInto max content.toList := by
  simp only [@libsParseIntegral_eq_ok _ max name, and_self, parseIntegral_eq_ok, stoul_full_iff,
    WrapsInto, says_iff]
  generalize content.toList.dropWhile isSpace = body
  by_cases hminus : body.head? = some '-'
  · exact converted_iff_of_minus hmax hminus
  · refine iff_of_true (fun n => converted_iff_of_plus hmax hminus) ?_
    rintro ⟨k, ⟨m, -, hk⟩, hle, -⟩
    rw [signed, if_neg hminus] at hk
    omega

/-- The identifier of a rule is read as it is written. -/
theorem parseIntegral_iff_id : 2 ^ 32 - 1 < 2 ^ 64 ∧
    ((∀ n, (parseIntegral (2 ^ 32 - 1) "id" "100" = .ok n ↔
          Says "100".toList n ∧ n ≤ 2 ^ 32 - 1) ∧
        (libsParseIntegral (2 ^ 32 - 1) "100" = .ok n ↔ Says "100".toList n ∧ n ≤ 2 ^ 32 - 1)) ↔
      ¬ WrapsInto (2 ^ 32 - 1) "100".toList) :=
  ⟨by decide, parseIntegral_iff (by decide) "id" "100"⟩

/-- A number below zero is read as one. -/
theorem parseIntegral_belowZero :
    parseIntegral (2 ^ 32 - 1) "id" "-18446744073709551615" = .ok 1 ∧
      libsParseIntegral (2 ^ 32 - 1) "-18446744073709551615" = .ok 1 ∧
      ¬ Says "-18446744073709551615".toList 1 := by
  refine ⟨by decide +kernel, by decide +kernel, ?_⟩
  rw [says_iff]
  rintro ⟨n, -, hn⟩
  have hhead : ("-18446744073709551615".toList.dropWhile isSpace).head? = some '-' := by decide
  rw [signed, if_pos hhead] at hn
  omega

end Numerals

section Durations

variable {options : List String}

/-- How many seconds the unit has; a number without one is in seconds. -/
def unitSeconds : List String → ℕ
  | [_, unit] => if unit = "m" then 60 else if unit = "h" then 3600 else 1
  | _ => 1

/-- What is returned is the number times its unit. -/
def ExactDuration (options : List String) : Prop :=
  ∀ value, parseSecondDuration options = .ok value →
    ∃ number, libsParseIntegral (2 ^ 32 - 1) (options.headD "") = .ok number ∧
      value.toNat = number * unitSeconds options

/-- The number of seconds has 32 bits. -/
def FitsDuration (options : List String) : Prop :=
  ∀ number, libsParseIntegral (2 ^ 32 - 1) (options.headD "") = .ok number →
    number * unitSeconds options < 2 ^ 32

theorem libsParseIntegral_le {max n : ℕ} {content : String}
    (h : libsParseIntegral max content = .ok n) : n ≤ max := by
  rw [@libsParseIntegral_eq_ok _ max ""] at h
  exact (parseIntegral_eq_ok.mp h).2

/-- The value is the number of seconds modulo `2 ^ 32`. -/
theorem parseSecondDuration_ok {value : UInt32} (h : parseSecondDuration options = .ok value) :
    ∃ number, libsParseIntegral (2 ^ 32 - 1) (options.headD "") = .ok number ∧
      value.toNat = number * unitSeconds options % 2 ^ 32 := by
  match options with
  | [] => cases h
  | [number] =>
    rw [parseSecondDuration] at h
    cases hnumber : libsParseIntegral (2 ^ 32 - 1) number with
    | error what => rw [hnumber] at h; cases h
    | ok n =>
      rw [hnumber] at h
      cases h
      exact ⟨n, hnumber, by simp [unitSeconds]⟩
  | [number, unit] =>
    rw [parseSecondDuration] at h
    cases hnumber : libsParseIntegral (2 ^ 32 - 1) number with
    | error what => rw [hnumber] at h; cases h
    | ok n =>
      simp only [hnumber] at h
      refine ⟨n, hnumber, ?_⟩
      by_cases hs : unit = "s"
      · subst hs
        cases h
        simp [unitSeconds]
      by_cases hm : unit = "m"
      · subst hm
        cases h
        simp [unitSeconds, UInt32.toNat_mul]
      by_cases hh : unit = "h"
      · subst hh
        cases h
        simp [unitSeconds, UInt32.toNat_mul, Nat.mul_assoc]
      · rw [if_neg hs, if_neg hm, if_neg hh] at h
        cases h
  | _ :: _ :: _ :: _ => cases h

/-- With another unit than a second, a number that can be read gives a value. -/
theorem exists_value {number : ℕ}
    (h : libsParseIntegral (2 ^ 32 - 1) (options.headD "") = .ok number)
    (hunit : unitSeconds options ≠ 1) : ∃ value, parseSecondDuration options = .ok value := by
  match options with
  | [] => exact absurd rfl hunit
  | [_] => exact absurd rfl hunit
  | [first, unit] =>
    rw [parseSecondDuration]
    rw [List.headD_cons] at h
    simp only [h]
    by_cases hm : unit = "m"
    · exact ⟨.ofNat number * 60, by simp [hm]⟩
    by_cases hh : unit = "h"
    · exact ⟨.ofNat number * 60 * 60, by simp [hh]⟩
    · rw [unitSeconds, if_neg hm, if_neg hh] at hunit
      exact absurd rfl hunit
  | _ :: _ :: _ :: _ => exact absurd rfl hunit

/-- A duration is exact if its number of seconds does not wrap around, and only then. -/
theorem exactDuration_iff (options : List String) :
    ExactDuration options ↔ FitsDuration options := by
  constructor
  · intro h number hnumber
    by_cases hunit : unitSeconds options = 1
    · have hle := libsParseIntegral_le hnumber
      rw [hunit]
      omega
    · obtain ⟨value, hvalue⟩ := exists_value hnumber hunit
      obtain ⟨number', hnumber', heq⟩ := h value hvalue
      rw [hnumber, Except.ok.injEq] at hnumber'
      rw [hnumber', ← heq]
      exact value.toNat_lt
  · intro h value hvalue
    obtain ⟨number, hnumber, heq⟩ := parseSecondDuration_ok hvalue
    exact ⟨number, hnumber, heq.trans (Nat.mod_eq_of_lt (h number hnumber))⟩

/-- An interval of more than a hundred years is taken for one of half an hour. -/
theorem hours_not_exactDuration : parseSecondDuration ["1193047", "h"] = .ok 1904 ∧
    ¬ ExactDuration ["1193047", "h"] := by
  have hvalue : parseSecondDuration ["1193047", "h"] = .ok 1904 := by decide +kernel
  refine ⟨hvalue, fun h => ?_⟩
  obtain ⟨number, hnumber, heq⟩ := h 1904 hvalue
  have hread : libsParseIntegral (2 ^ 32 - 1) "1193047" = .ok 1193047 := by decide +kernel
  rw [List.headD_cons, hread, Except.ok.injEq] at hnumber
  subst hnumber
  exact absurd heq (by decide)

end Durations

end Ctguard
