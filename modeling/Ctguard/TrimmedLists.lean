import Ctguard.ParseRules
import Mathlib.Data.List.DropRight
import Mathlib.Data.List.Forall2

/-!
# Lists in rule files

`trim` moves two positions over a string, and a list is split by searching for the next comma. The
range of `trim` starts at `size() - 1`: for an empty string that is a position far behind it, and
of a string of whitespace the last character is kept.
-/

namespace Ctguard

variable {str t u v core : List Char} {c : Char} {begin last pos k previous : ℕ}

/-- `str[i]`: a null stands behind the last character, and nothing is behind that. -/
def charAt (str : List Char) (i : ℕ) : Option Char := (str ++ ['\x00'])[i]?

/-- The first loop of `trim`. -/
def trimBegin (str : List Char) (last begin : ℕ) : Option ℕ :=
  if begin < last then
    match charAt str begin with
    | none => none
    | some c => if isSpace c then trimBegin str last (begin + 1) else some begin
  else some begin
termination_by last - begin

/-- The second loop of `trim`. -/
def trimEnd (str : List Char) (begin : ℕ) : ℕ → Option ℕ
  | 0 => some 0
  | last + 1 =>
    if begin < last + 1 then
      match charAt str (last + 1) with
      | none => none
      | some c => if isSpace c then trimEnd str begin last else some (last + 1)
    else some (last + 1)

/-- `trim`, if it reads no character outside of the string. Sizes wrap around. -/
def trimStr (str : List Char) : Option (List Char) := do
  let last := (str.length + (2 ^ 64 - 1)) % 2 ^ 64
  let begin ← trimBegin str last 0
  let last ← trimEnd str begin last
  return (str.drop begin).take ((last + (2 ^ 64 - begin) + 1) % 2 ^ 64)

/-- `find` of a character from a position on. -/
def findFrom (str : List Char) (c : Char) (pos : ℕ) : Option ℕ :=
  ((str.drop pos).idxOf? c).map (pos + ·)

theorem le_of_findFrom (h : findFrom str c pos = some k) : pos ≤ k ∧ k < str.length := by
  simp only [findFrom, Option.map_eq_some_iff, List.idxOf?_eq_some_iff] at h
  obtain ⟨i, ⟨hi, -⟩, rfl⟩ := h
  rw [List.length_drop] at hi
  omega

/-- The loop that splits a list, from the position behind the previous comma on. -/
def splitLoop (str : List Char) (previous : ℕ) : Option (List (List Char)) :=
  match _ : findFrom str ',' previous with
  | some current => do
    let piece ← trimStr ((str.drop previous).take (current - previous))
    let pieces ← splitLoop str (current + 1)
    return piece :: pieces
  | none => do
    let piece ← trimStr ((str.drop previous).take (2 ^ 64 - 1 - previous))
    return [piece]
termination_by str.length - previous
decreasing_by
  have hle := le_of_findFrom ‹_›
  omega

/-- No character of the string is anything but whitespace. -/
def Blank (str : List Char) : Prop := ∀ c ∈ str, isSpace c = true

instance (str : List Char) : Decidable (Blank str) := List.decidableBAll _ str

/-- Neither end of the string is whitespace. -/
def Trimmed (str : List Char) : Prop :=
  (∀ c, str.head? = some c → isSpace c = false) ∧ ∀ c, str.getLast? = some c → isSpace c = false

/-- The longest part of the string without whitespace at its ends. -/
def LongestTrimmed (str t : List Char) : Prop :=
  t <:+: str ∧ Trimmed t ∧ ∀ t', t' <:+: str → Trimmed t' → t'.length ≤ t.length

section Trim

/-- The first loop stops at the first character that is not whitespace, or at its end. -/
theorem trimBegin_eq (hle : begin ≤ k)
    (hspace : ∀ i, begin ≤ i → i < k → ∃ c, charAt str i = some c ∧ isSpace c = true)
    (hstop : k = last ∨ k < last ∧ ∃ c, charAt str k = some c ∧ isSpace c = false) :
    trimBegin str last begin = some k := by
  induction hn : k - begin generalizing begin with
  | zero =>
    have heq : begin = k := by omega
    subst heq
    rw [trimBegin]
    rcases hstop with rfl | ⟨hlt, c, hc, hns⟩
    · rw [if_neg (Nat.lt_irrefl _)]
    · simp [hlt, hc, hns]
  | succ n ih =>
    obtain ⟨c, hc, hs⟩ := hspace begin (Nat.le_refl _) (by omega)
    rw [trimBegin, if_pos (by omega), hc]
    simp only [hs, if_true]
    apply ih
    · omega
    · exact fun i hi => hspace i (by omega)
    · omega

/-- The second loop stops at the last character that is not whitespace, or at the first one. -/
theorem trimEnd_eq (hle : k ≤ last)
    (hspace : ∀ i, k < i → i ≤ last → ∃ c, charAt str i = some c ∧ isSpace c = true)
    (hstop : k = begin ∨ begin < k ∧ ∃ c, charAt str k = some c ∧ isSpace c = false) :
    trimEnd str begin last = some k := by
  induction last with
  | zero =>
    have heq : k = 0 := Nat.le_zero.mp hle
    rw [trimEnd, heq]
  | succ last ih =>
    rcases Nat.lt_or_eq_of_le hle with hlt | rfl
    · obtain ⟨c, hc, hs⟩ := hspace (last + 1) hlt (Nat.le_refl _)
      rw [trimEnd, if_pos (by omega), hc]
      simp only [hs, if_true]
      exact ih (by omega) fun i hi hil => hspace i hi (by omega)
    · rw [trimEnd]
      rcases hstop with rfl | ⟨hlt, c, hc, hns⟩
      · rw [if_neg (Nat.lt_irrefl _)]
      · simp [hlt, hc, hns]

theorem charAt_eq {i : ℕ} (hi : i < str.length) : charAt str i = some str[i] := by
  rw [charAt, List.getElem?_append_left hi, List.getElem?_eq_getElem hi]

theorem charAt_first (hpos : 0 < t.length) (ht : Trimmed t) :
    ∃ c, charAt (u ++ t ++ v) u.length = some c ∧ isSpace c = false := by
  refine ⟨t[0], ?_, ht.1 _ ?_⟩
  · rw [charAt_eq (by simp only [List.length_append]; omega)]
    simp [hpos]
  · rw [List.head?_eq_getElem?, List.getElem?_eq_getElem hpos]

theorem charAt_last (hpos : 0 < t.length) (ht : Trimmed t) :
    ∃ c, charAt (u ++ t ++ v) (u.length + (t.length - 1)) = some c ∧ isSpace c = false := by
  have hi : t.length - 1 < t.length := Nat.sub_lt hpos Nat.one_pos
  refine ⟨t[t.length - 1], ?_, ht.2 _ ?_⟩
  · rw [charAt_eq (by simp only [List.length_append]; omega)]
    simp [hi]
  · rw [List.getLast?_eq_getElem?, List.getElem?_eq_getElem hi]

/-- Whitespace may stand around a part that is not empty and trimmed. -/
structure Surrounded (str u core v : List Char) : Prop where
  eq : str = u ++ core ++ v
  blank_left : Blank u
  blank_right : Blank v
  ne_nil : core ≠ []
  trimmed : Trimmed core

/-- A string that is not blank has such a part. -/
theorem exists_surrounded (h : ¬ Blank str) : ∃ u core v, Surrounded str u core v := by
  have hprefix := List.rdropWhile_prefix isSpace (str.dropWhile isSpace)
  have hne : (str.dropWhile isSpace).rdropWhile isSpace ≠ [] := by
    rw [Ne, List.rdropWhile_eq_nil_iff]
    intro hall
    apply h
    intro c hc
    rw [← @List.takeWhile_append_dropWhile _ isSpace str, List.mem_append] at hc
    rcases hc with hc | hc
    · exact List.mem_takeWhile_imp hc
    · exact hall c hc
  refine ⟨str.takeWhile isSpace, (str.dropWhile isSpace).rdropWhile isSpace,
    (str.dropWhile isSpace).rtakeWhile isSpace, ?_, ?_, ?_, hne, ?_, ?_⟩
  · rw [List.append_assoc, List.rdropWhile_append_rtakeWhile, List.takeWhile_append_dropWhile]
  · exact fun c hc => List.mem_takeWhile_imp hc
  · exact fun c hc => List.mem_rtakeWhile_imp hc
  · intro c hc
    obtain ⟨w, hw⟩ := hprefix
    have hhead := List.head?_dropWhile_not isSpace str
    rw [← hw, List.head?_append_of_ne_nil _ hne, hc] at hhead
    exact hhead
  · intro c hc
    have hlast := List.rdropWhile_last_not isSpace _ hne
    rw [List.getLast?_eq_some_getLast hne, Option.some.injEq] at hc
    simpa [hc] using hlast

namespace Surrounded

variable (h : Surrounded str u core v)

include h

theorem length_pos : 0 < core.length := List.length_pos_of_ne_nil h.ne_nil

theorem length_eq : str.length = u.length + core.length + v.length := by
  rw [h.eq, List.length_append, List.length_append]

theorem charAt_left {i : ℕ} (hi : i < u.length) :
    ∃ c, charAt str i = some c ∧ isSpace c = true := by
  have hlen := h.length_eq
  refine ⟨u[i], ?_, h.blank_left _ (List.getElem_mem hi)⟩
  rw [charAt_eq (by omega)]
  simp [h.eq, hi]

theorem charAt_right {i : ℕ} (hi : i < v.length) :
    ∃ c, charAt str (u.length + core.length + i) = some c ∧ isSpace c = true := by
  have hlen := h.length_eq
  refine ⟨v[i], ?_, h.blank_right _ (List.getElem_mem hi)⟩
  rw [charAt_eq (by omega)]
  simp [h.eq, Nat.add_assoc]

/-- Both loops stop at the ends of the part. -/
theorem trimStr_eq (hlen : str.length < 2 ^ 64) : trimStr str = some core := by
  have hsum := h.length_eq
  have hpos := h.length_pos
  have hlast : (str.length + (2 ^ 64 - 1)) % 2 ^ 64 = u.length + core.length + v.length - 1 := by
    omega
  have hbegin : trimBegin str (u.length + core.length + v.length - 1) 0 = some u.length := by
    apply trimBegin_eq (Nat.zero_le _)
    · exact fun i _ hi => h.charAt_left hi
    · rcases Nat.lt_or_ge u.length (u.length + core.length + v.length - 1) with hlt | hge
      · exact .inr ⟨hlt, h.eq ▸ charAt_first hpos h.trimmed⟩
      · exact .inl (by omega)
  have hend : trimEnd str u.length (u.length + core.length + v.length - 1) =
      some (u.length + (core.length - 1)) := by
    apply trimEnd_eq (by omega)
    · intro i hi hil
      obtain ⟨c, hc⟩ := h.charAt_right (i := i - (u.length + core.length)) (by omega)
      rw [Nat.add_sub_of_le (by omega)] at hc
      exact ⟨c, hc⟩
    · rcases Nat.eq_or_lt_of_le hpos with hone | hlt
      · exact .inl (by omega)
      · exact .inr ⟨by omega, h.eq ▸ charAt_last hpos h.trimmed⟩
  have hsize : (u.length + (core.length - 1) + (2 ^ 64 - u.length) + 1) % 2 ^ 64 =
      core.length % 2 ^ 64 := by
    have hrange : u.length + (core.length - 1) + (2 ^ 64 - u.length) + 1 =
        core.length + 2 ^ 64 := by omega
    rw [hrange, Nat.add_mod_right]
  rw [trimStr]
  simp only [hlast, hbegin, hend, hsize, Option.bind_eq_bind, Option.bind_some, Option.pure_def]
  rw [Nat.mod_eq_of_lt (by omega), h.eq, List.append_assoc, List.drop_left, List.take_left]

/-- No part without whitespace at its ends reaches outside of it. -/
theorem length_le (hpart : t <:+: str) (ht : Trimmed t) : t.length ≤ core.length := by
  rcases Nat.eq_zero_or_pos t.length with hzero | hpos
  · omega
  obtain ⟨a, b, rfl⟩ := hpart
  have hlen := h.length_eq
  rw [List.length_append, List.length_append] at hlen
  have hleft : u.length ≤ a.length := by
    by_contra hlt
    obtain ⟨c, hc, hspace⟩ := h.charAt_left (Nat.not_le.mp hlt)
    obtain ⟨d, hd, hfirst⟩ := @charAt_first t a b hpos ht
    rw [hc, Option.some.injEq] at hd
    rw [← hd, hspace] at hfirst
    cases hfirst
  have hright : v.length ≤ b.length := by
    by_contra hlt
    have hpos' :
        u.length + core.length + (v.length - b.length - 1) = a.length + (t.length - 1) := by
      omega
    obtain ⟨c, hc, hspace⟩ := h.charAt_right (i := v.length - b.length - 1) (by omega)
    obtain ⟨d, hd, hlast⟩ := @charAt_last t a b hpos ht
    rw [hpos', hd, Option.some.injEq] at hc
    rw [← hc, hlast] at hspace
    cases hspace
  omega

theorem longestTrimmed : LongestTrimmed str core :=
  ⟨⟨u, v, h.eq.symm⟩, h.trimmed, fun _ => h.length_le⟩

end Surrounded

/-- An empty string is read far behind its end. -/
theorem trimStr_nil : trimStr [] = none := by
  simp [trimStr, trimBegin, trimEnd, charAt, isSpace]

/-- Of a string of whitespace, the last character is kept. -/
theorem trimStr_concat_of_blank (hblank : Blank (str ++ [c])) (hlen : str.length + 1 < 2 ^ 64) :
    trimStr (str ++ [c]) = some [c] := by
  have hlast : ((str ++ [c]).length + (2 ^ 64 - 1)) % 2 ^ 64 = str.length := by
    rw [List.length_append, List.length_singleton]
    omega
  have hbegin : trimBegin (str ++ [c]) str.length 0 = some str.length := by
    apply trimBegin_eq (Nat.zero_le _)
    · intro i _ hi
      have hi' : i < (str ++ [c]).length := by
        rw [List.length_append]
        omega
      exact ⟨_, charAt_eq hi', hblank _ (List.getElem_mem hi')⟩
    · exact .inl rfl
  have hend : trimEnd (str ++ [c]) str.length str.length = some str.length :=
    trimEnd_eq (Nat.le_refl _) (fun i hi hil => absurd hil (Nat.not_le.mpr hi)) (.inl rfl)
  have hsize : (str.length + (2 ^ 64 - str.length) + 1) % 2 ^ 64 = 1 := by omega
  rw [trimStr]
  simp only [hlast, hbegin, hend, hsize, Option.bind_eq_bind, Option.bind_some, Option.pure_def]
  rw [List.drop_left, List.take_one]
  rfl

theorem trimFront_append (hu : Blank u) (hc : isSpace c = false) (w : List Char) :
    trimFront (u ++ c :: w) = c :: w := by
  induction u with
  | nil =>
    cases w with
    | nil => rfl
    | cons d w => simp [trimFront, hc]
  | cons d u ih =>
    have hd := hu d List.mem_cons_self
    have hu' : Blank u := fun e he => hu e (List.mem_cons_of_mem d he)
    refine Eq.trans ?_ (ih hu')
    cases u <;> simp [trimFront, hd]

theorem trimFront_concat_of_blank (hu : Blank u) : trimFront (u ++ [c]) = [c] := by
  induction u with
  | nil => rfl
  | cons d u ih =>
    have hd := hu d List.mem_cons_self
    have hu' : Blank u := fun e he => hu e (List.mem_cons_of_mem d he)
    refine Eq.trans ?_ (ih hu')
    cases u <;> simp [trimFront, hd]

theorem Surrounded.trimChars_eq (h : Surrounded str u core v) : trimChars str = core := by
  obtain ⟨c, w, hcw⟩ := List.exists_cons_of_ne_nil h.ne_nil
  have hfront : trimFront str = core ++ v := by
    rw [h.eq, List.append_assoc, hcw, List.cons_append]
    exact trimFront_append h.blank_left (h.trimmed.1 c (by rw [hcw, List.head?_cons])) _
  obtain ⟨w', d, hd⟩ := (List.eq_nil_or_concat' core).resolve_left h.ne_nil
  have hback : trimFront (v.reverse ++ core.reverse) = core.reverse := by
    rw [hd, List.reverse_append, List.reverse_singleton, List.singleton_append]
    apply trimFront_append
    · exact fun e he => h.blank_right e (List.mem_reverse.mp he)
    · exact h.trimmed.2 d (by rw [hd, List.getLast?_concat])
  rw [trimChars, hfront, List.reverse_append, hback, List.reverse_reverse]

/-- The positions cut out what whitespace is removed from character by character. -/
theorem trimStr_eq_trimChars (hne : str ≠ []) (hlen : str.length < 2 ^ 64) :
    trimStr str = some (trimChars str) := by
  by_cases hblank : Blank str
  · obtain ⟨u, c, rfl⟩ := (List.eq_nil_or_concat' str).resolve_left hne
    rw [List.length_append, List.length_singleton] at hlen
    have hu : Blank u := fun d hd => hblank d (List.mem_append_left _ hd)
    rw [trimStr_concat_of_blank hblank hlen, trimChars, trimFront_concat_of_blank hu]
    rfl
  · obtain ⟨u, core, v, h⟩ := exists_surrounded hblank
    rw [h.trimStr_eq hlen, h.trimChars_eq]

/-- Only a blank string has no part that is trimmed, apart from the empty one. -/
theorem LongestTrimmed.eq_nil_iff (h : LongestTrimmed str t) : t = [] ↔ Blank str := by
  constructor
  · rintro rfl
    by_contra hblank
    obtain ⟨u, core, v, hsurrounded⟩ := exists_surrounded hblank
    have hle := h.2.2 core ⟨u, v, hsurrounded.eq.symm⟩ hsurrounded.trimmed
    exact absurd hsurrounded.length_pos (Nat.not_lt.mpr hle)
  · intro hblank
    cases t with
    | nil => rfl
    | cons c t =>
      have hspace := hblank c (h.1.subset List.mem_cons_self)
      rw [h.2.1.1 c List.head?_cons] at hspace
      cases hspace

/-- What `trim` promises of a string is kept exactly if it is not blank. -/
theorem trimStr_iff (hlen : str.length < 2 ^ 64) :
    (∃ t, trimStr str = some t ∧ LongestTrimmed str t) ↔ ¬ Blank str := by
  constructor
  · rintro ⟨t, ht, hlongest⟩ hblank
    have hnil := hlongest.eq_nil_iff.mpr hblank
    subst hnil
    rcases List.eq_nil_or_concat' str with rfl | ⟨u, c, rfl⟩
    · rw [trimStr_nil] at ht
      cases ht
    · rw [List.length_append, List.length_singleton] at hlen
      rw [trimStr_concat_of_blank hblank hlen] at ht
      cases ht
  · intro h
    obtain ⟨u, core, v, hsurrounded⟩ := exists_surrounded h
    exact ⟨core, hsurrounded.trimStr_eq hlen, hsurrounded.longestTrimmed⟩

end Trim

section Split

theorem drop_of_findFrom (h : findFrom str ',' previous = some k) :
    str.drop previous = (str.drop previous).take (k - previous) ++ ',' :: str.drop (k + 1) ∧
      ',' ∉ (str.drop previous).take (k - previous) := by
  simp only [findFrom, Option.map_eq_some_iff] at h
  obtain ⟨i, hi, rfl⟩ := h
  obtain ⟨hlt, hcomma, hbefore⟩ := List.idxOf?_eq_some_iff.mp hi
  rw [Nat.add_sub_cancel_left]
  constructor
  · conv_lhs => rw [← List.take_append_drop i (str.drop previous)]
    rw [List.drop_eq_getElem_cons hlt, hcomma, List.drop_drop]
    rfl
  · intro hmem
    obtain ⟨j, hj, heq⟩ := List.mem_iff_getElem.mp hmem
    rw [List.length_take] at hj
    rw [List.getElem_take] at heq
    exact hbefore j (by omega) heq

/-- The loop ends with the pieces between the commas, each of them trimmed. -/
theorem splitLoop_eq (hlen : str.length < 2 ^ 64) (hle : previous ≤ str.length) :
    splitLoop str previous = ((str.drop previous).splitOn ',').mapM trimStr := by
  induction previous using splitLoop.induct str with
  | case1 previous current hfind ih =>
    have hcurrent := le_of_findFrom hfind
    obtain ⟨hdrop, hbefore⟩ := drop_of_findFrom hfind
    rw [splitLoop]
    split
    case h_2 hnone => rw [hfind] at hnone; cases hnone
    case h_1 current' hsome =>
      rw [hfind, Option.some.injEq] at hsome
      subst hsome
      conv_rhs => rw [hdrop, List.splitOn_append_cons_self_of_not_mem hbefore, List.mapM_cons]
      rw [ih (by omega)]
  | case2 previous hfind =>
    rw [splitLoop]
    split
    case h_1 current hsome => rw [hfind] at hsome; cases hsome
    case h_2 hnone =>
      have hcomma : ',' ∉ str.drop previous := by
        rwa [findFrom, Option.map_eq_none_iff, List.idxOf?_eq_none_iff] at hnone
      have htake : (str.drop previous).take (2 ^ 64 - 1 - previous) = str.drop previous := by
        apply List.take_of_length_le
        rw [List.length_drop]
        omega
      rw [htake, List.splitOn_eq_singleton hcomma]
      cases htrim : trimStr (str.drop previous) <;> simp [htrim]

theorem length_splitOn (str : List Char) : (str.splitOn ',').length = str.count ',' + 1 := by
  induction str with
  | nil => rfl
  | cons c str ih =>
    rw [List.splitOn_cons_eq_if_modifyHead, List.count_cons]
    split
    · rw [List.length_cons, ih]
    · rw [List.length_modifyHead, ih, Nat.add_zero]

theorem sublist_of_mem_splitOn {piece : List Char} (h : piece ∈ str.splitOn ',') :
    List.Sublist piece str := by
  induction str generalizing piece with
  | nil =>
    rw [List.splitOn_nil, List.mem_singleton] at h
    rw [h]
  | cons c str ih =>
    rw [List.splitOn_cons_eq_if_modifyHead] at h
    obtain ⟨first, pieces, heq⟩ := List.exists_cons_of_ne_nil (List.splitOn_ne_nil ',' str)
    rw [heq] at h ih
    split at h
    · rcases List.mem_cons.mp h with rfl | h
      · exact List.nil_sublist _
      · exact (ih h).cons c
    · rcases List.mem_cons.mp h with rfl | h
      · exact (ih List.mem_cons_self).cons_cons c
      · exact (ih (List.mem_cons_of_mem _ h)).cons c

/-- Unless a piece is empty, the loop returns what `splitList` does. -/
theorem splitLoop_eq_splitList {s : String} (hlen : s.toList.length < 2 ^ 64)
    (hne : [] ∉ s.toList.splitOn ',') :
    splitLoop s.toList 0 = some ((splitList s).map String.toList) := by
  rw [splitLoop_eq hlen (Nat.zero_le _), List.drop_zero, splitList, List.map_map]
  have htrim : ∀ piece ∈ s.toList.splitOn ',', trimStr piece = some (trimChars piece) := by
    intro piece hmem
    apply trimStr_eq_trimChars
    · rintro rfl
      exact hne hmem
    · exact Nat.lt_of_le_of_lt (sublist_of_mem_splitOn hmem).length_le hlen
  revert htrim
  generalize s.toList.splitOn ',' = pieces
  intro htrim
  induction pieces with
  | nil => rfl
  | cons piece pieces ih =>
    rw [List.forall_mem_cons] at htrim
    rw [List.mapM_cons, htrim.1, ih htrim.2]
    simp

/-- A list of strings is trimmed as a whole exactly if each of them is. -/
theorem mapM_trimStr_iff (pieces : List (List Char)) :
    (∃ ps, pieces.mapM trimStr = some ps ∧ List.Forall₂ LongestTrimmed pieces ps) ↔
      ∀ piece ∈ pieces, ∃ p, trimStr piece = some p ∧ LongestTrimmed piece p := by
  induction pieces with
  | nil => simp
  | cons piece pieces ih =>
    rw [List.forall_mem_cons, ← ih, List.mapM_cons]
    constructor
    · rintro ⟨ps, hps, hall⟩
      obtain ⟨p, hp, hps⟩ := Option.bind_eq_some_iff.mp hps
      obtain ⟨ps', hps', heq⟩ := Option.bind_eq_some_iff.mp hps
      cases heq
      cases hall with
      | cons hfirst hall => exact ⟨⟨p, hp, hfirst⟩, ps', hps', hall⟩
    · rintro ⟨⟨p, hp, hfirst⟩, ps, hps, hall⟩
      exact ⟨p :: ps, by simp [hp, hps], .cons hfirst hall⟩

/-- What lists in rule files are expected to be read as: `trim` leaves the longest trimmed part, a
list has a trimmed piece between any two commas, and a blank name is rejected. -/
structure ReadTrimmed (str : List Char) : Prop where
  trim : ∃ t, trimStr str = some t ∧ LongestTrimmed str t ∧ (t = [] ↔ Blank str)
  pieces : ∃ ps, splitLoop str 0 = some ps ∧ ps.length = str.count ',' + 1 ∧
    List.Forall₂ LongestTrimmed (str.splitOn ',') ps
  name : Blank str → ∀ kind node, node.value = String.ofList str → node.attributes = [] →
    node.children = [] → parseNameNode kind node = .error ("Invalid empty " ++ kind ++ " node")

theorem splitLoop_iff (hlen : str.length < 2 ^ 64) :
    (∃ ps, splitLoop str 0 = some ps ∧ List.Forall₂ LongestTrimmed (str.splitOn ',') ps) ↔
      ∀ piece ∈ str.splitOn ',', ¬ Blank piece := by
  rw [splitLoop_eq hlen (Nat.zero_le _), List.drop_zero, mapM_trimStr_iff]
  refine forall₂_congr fun piece hmem => trimStr_iff ?_
  exact Nat.lt_of_le_of_lt (sublist_of_mem_splitOn hmem).length_le hlen

/-- That is so exactly if no piece is blank. -/
theorem readTrimmed_iff (hlen : str.length < 2 ^ 64) :
    ReadTrimmed str ↔ ∀ piece ∈ str.splitOn ',', ¬ Blank piece := by
  constructor
  · rintro ⟨-, ⟨ps, hps, -, hall⟩, -⟩
    exact (splitLoop_iff hlen).mp ⟨ps, hps, hall⟩
  · intro h
    have hblank : ¬ Blank str := by
      intro hblank
      obtain ⟨first, pieces, heq⟩ := List.exists_cons_of_ne_nil (List.splitOn_ne_nil ',' str)
      have hfirst : first ∈ str.splitOn ',' := by
        rw [heq]
        exact List.mem_cons_self
      exact h first hfirst fun c hc => hblank c ((sublist_of_mem_splitOn hfirst).subset hc)
    obtain ⟨t, ht, hlongest⟩ := (trimStr_iff hlen).mpr hblank
    obtain ⟨ps, hps, hall⟩ := (splitLoop_iff hlen).mpr h
    refine ⟨⟨t, ht, hlongest, hlongest.eq_nil_iff⟩, ⟨ps, hps, ?_, hall⟩,
      fun hb => absurd hb hblank⟩
    rw [← hall.length_eq, length_splitOn]

/-- Two fields with spaces around them are read. -/
theorem readTrimmed_iff_fields : "user , ip".toList.length < 2 ^ 64 ∧
    (ReadTrimmed "user , ip".toList ↔ ∀ piece ∈ "user , ip".toList.splitOn ',', ¬ Blank piece) :=
  ⟨by decide, readTrimmed_iff (by decide)⟩

/-- A space is accepted as the name of a group. -/
theorem space_not_readTrimmed :
    parseNameNode "group" { name := "group", value := " " } = .ok " " ∧
      trimStr [' '] = some [' '] ∧ ¬ ReadTrimmed [' '] := by
  have hname : parseNameNode "group" { name := "group", value := " " } = .ok " " := by decide
  refine ⟨hname, @trimStr_concat_of_blank [] ' ' (by decide) (by decide), fun h => ?_⟩
  have hrejected := h.name (by decide) "group" { name := "group", value := " " } rfl rfl rfl
  rw [hname] at hrejected
  cases hrejected

end Split

end Ctguard
