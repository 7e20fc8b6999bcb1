import Mathlib.Data.List.Basic
import Mathlib.Data.List.Infix
import Mathlib.Data.List.TakeWhile

/-!
# Delimited reading from an input stream

A stream over a fixed buffer, with the get position and the two error bits that
`getline`, `tellg` and `seekg` consult. An extraction that meets the end of the
buffer sets `eofbit`; every later operation on the stream then fails, and a failed
`tellg` answers `-1`. The delimited items of a buffer are defined independently of
streams, as the pieces between delimiters without the last, unterminated one.
-/

namespace Ctguard

universe u

/-- An input stream over the characters `data`. -/
structure InputStream (α : Type u) where
  data : List α
  pos : ℕ := 0
  eofbit : Bool := false
  failbit : Bool := false

namespace InputStream

variable {α : Type u} [DecidableEq α]

def good (s : InputStream α) : Bool := !s.eofbit && !s.failbit

/-- The characters that have not been extracted yet. -/
def rest (s : InputStream α) : List α := s.data.drop s.pos

/-- Extraction up to the next delimiter, which is consumed but not stored. A stream
that is not good keeps the old contents of `line`. -/
def getline (delim : α) (line : List α) (s : InputStream α) : List α × InputStream α :=
  if s.good then
    let item := s.rest.takeWhile (· != delim)
    if item.length < s.rest.length then
      (item, { s with pos := s.pos + item.length + 1 })
    else
      (item, { s with pos := s.pos + item.length, eofbit := true, failbit := item.isEmpty })
  else (line, { s with failbit := true })

/-- The get position, or `-1` on a stream that is not good, which also fails. -/
def tellg (s : InputStream α) : ℤ × InputStream α :=
  if s.good then (s.pos, s) else (-1, { s with failbit := true })

/-- Clears `eofbit` and moves the get position; a negative position is refused. -/
def seekg (p : ℤ) (s : InputStream α) : InputStream α :=
  if s.failbit then { s with eofbit := false }
  else if p < 0 then { s with eofbit := false, failbit := true }
  else { s with eofbit := false, pos := p.toNat }

/-- A bound on the number of extractions before the stream fails. -/
def fuel (s : InputStream α) : ℕ :=
  if s.failbit then 0 else if s.eofbit then 1 else s.rest.length + 2

theorem getline_fuel_lt (delim : α) (line : List α) (s : InputStream α)
    (h : s.failbit = false) : (s.getline delim line).2.fuel < s.fuel := by
  cases he : s.eofbit with
  | true => simp [getline, good, fuel, h, he]
  | false =>
    have hgood : s.good = true := by simp [good, h, he]
    by_cases hlt : (s.rest.takeWhile (· != delim)).length < s.rest.length
    · simp only [getline, hgood, hlt, if_true, fuel, h, he]
      simp only [rest, List.length_drop] at hlt ⊢
      simp
      omega
    · have hle : (s.getline delim line).2.fuel ≤ 1 := by
        simp only [getline, hgood, hlt, if_true, if_false, fuel]
        split <;> decide
      have hs : s.fuel = s.rest.length + 2 := by simp [fuel, h, he]
      omega

omit [DecidableEq α] in
theorem tellg_fuel_le (s : InputStream α) : s.tellg.2.fuel ≤ s.fuel := by
  unfold tellg
  split
  · exact le_rfl
  · simp [fuel]

omit [DecidableEq α] in
theorem tellg_of_good {s : InputStream α} (h : s.good = true) : s.tellg = (↑s.pos, s) := by
  simp [tellg, h]

omit [DecidableEq α] in
theorem seekg_natCast (p : ℕ) (data : List α) :
    ({ data := data } : InputStream α).seekg p = { data := data, pos := p } := by
  have hp : ¬ (p : ℤ) < 0 := by omega
  simp [seekg, hp]

omit [DecidableEq α] in
theorem not_failbit_of_good {s : InputStream α} (h : s.good = true) : ¬ s.failbit = true := by
  simp only [good, Bool.and_eq_true, Bool.not_eq_true'] at h
  simp [h.2]

omit [DecidableEq α] in
theorem rest_advance {s : InputStream α} {item more : List α} {delim : α}
    (h : s.rest = item ++ delim :: more) (hgood : s.good = true) :
    ({ s with pos := s.pos + item.length + 1 } : InputStream α).rest = more ∧
      ({ s with pos := s.pos + item.length + 1 } : InputStream α).good = true := by
  refine ⟨?_, hgood⟩
  have hdrop : s.data.drop (s.pos + (item.length + 1)) = s.rest.drop (item.length + 1) :=
    List.drop_drop.symm
  change s.data.drop (s.pos + item.length + 1) = more
  rw [Nat.add_assoc, hdrop, h]
  simp

/-- On a good stream whose rest starts with a delimited item, that item is read. -/
theorem getline_item {delim : α} {s : InputStream α} {item more : List α}
    (hgood : s.good = true) (hitem : delim ∉ item) (hrest : s.rest = item ++ delim :: more)
    (line : List α) :
    s.getline delim line = (item, { s with pos := s.pos + item.length + 1 }) := by
  have hne : ∀ a ∈ item, (a != delim) = true :=
    fun a ha => bne_iff_ne.mpr (ne_of_mem_of_not_mem ha hitem)
  have htake : (item ++ delim :: more).takeWhile (· != delim) = item := by
    rw [List.takeWhile_append_of_pos hne, List.takeWhile_cons_of_neg (by simp), List.append_nil]
  simp [getline, hgood, hrest, htake]

/-- On a good stream without a further delimiter, everything is read and the end met. -/
theorem getline_last {delim : α} {s : InputStream α}
    (hgood : s.good = true) (hrest : delim ∉ s.rest) (line : List α) :
    s.getline delim line = (s.rest,
      { s with pos := s.pos + s.rest.length, eofbit := true, failbit := s.rest.isEmpty }) := by
  have htake : s.rest.takeWhile (· != delim) = s.rest :=
    List.takeWhile_eq_self_iff.mpr
      fun a ha => bne_iff_ne.mpr (ne_of_mem_of_not_mem ha hrest)
  simp [getline, hgood, htake]

end InputStream

section Items

variable {α : Type u} [DecidableEq α]

/-- The items of a buffer that are closed by a delimiter. -/
def terminatedItems (delim : α) (xs : List α) : List (List α) := (xs.splitOn delim).dropLast

/-- The item behind the last delimiter, still open. -/
def openItem (delim : α) (xs : List α) : List α := (xs.splitOn delim).getLastD []

/-- A buffer that is empty or ends with a delimiter leaves no item open. -/
def Terminated (delim : α) (xs : List α) : Prop := xs = [] ∨ xs.getLast? = some delim

instance (delim : α) (xs : List α) : Decidable (Terminated delim xs) :=
  inferInstanceAs (Decidable (_ ∨ _))

@[simp] theorem terminatedItems_nil (delim : α) : terminatedItems delim [] = [] := by
  simp [terminatedItems]

theorem terminatedItems_of_notMem {delim : α} {xs : List α} (h : delim ∉ xs) :
    terminatedItems delim xs = [] := by
  simp [terminatedItems, List.splitOn_eq_singleton h]

theorem terminatedItems_append_cons (delim : α) (xs ys : List α) :
    terminatedItems delim (xs ++ delim :: ys) =
      xs.splitOn delim ++ terminatedItems delim ys := by
  rw [terminatedItems, List.splitOn_append_cons_self,
    List.dropLast_append_of_ne_nil (List.splitOn_ne_nil delim ys), terminatedItems]

theorem terminatedItems_item {delim : α} {item : List α} (h : delim ∉ item) (ys : List α) :
    terminatedItems delim (item ++ delim :: ys) = item :: terminatedItems delim ys := by
  rw [terminatedItems_append_cons, List.splitOn_eq_singleton h, List.singleton_append]

theorem openItem_of_notMem {delim : α} {xs : List α} (h : delim ∉ xs) :
    openItem delim xs = xs := by
  simp [openItem, List.splitOn_eq_singleton h]

theorem openItem_append_cons (delim : α) (xs ys : List α) :
    openItem delim (xs ++ delim :: ys) = openItem delim ys := by
  rw [openItem, List.splitOn_append_cons_self, openItem,
    List.getLastD_eq_getLast?, List.getLastD_eq_getLast?,
    List.getLast?_append_of_ne_nil _ (List.splitOn_ne_nil delim ys)]

/-- Items are closed independently on both sides of a closed boundary. -/
theorem terminatedItems_append {delim : α} {xs : List α} (h : Terminated delim xs)
    (ys : List α) :
    terminatedItems delim (xs ++ ys) = terminatedItems delim xs ++ terminatedItems delim ys := by
  rcases h with rfl | h
  · simp
  · obtain ⟨zs, rfl⟩ := List.getLast?_eq_some_iff.mp h
    rw [List.append_assoc, List.singleton_append, terminatedItems_append_cons,
      terminatedItems_append_cons, terminatedItems_nil, List.append_nil]

omit [DecidableEq α] in
theorem Terminated.append {delim : α} {xs ys : List α} (hx : Terminated delim xs)
    (hy : Terminated delim ys) : Terminated delim (xs ++ ys) := by
  rcases hy with rfl | hy
  · simpa using hx
  · exact .inr (by rw [List.getLast?_append, hy, Option.some_or])

omit [DecidableEq α] in
theorem terminated_append_iff {delim : α} {xs : List α} (hx : Terminated delim xs)
    (ys : List α) : Terminated delim (xs ++ ys) ↔ Terminated delim ys := by
  refine ⟨?_, hx.append⟩
  rintro (h | h)
  · exact .inl (List.append_eq_nil_iff.mp h).2
  · cases ys with
    | nil => exact .inl rfl
    | cons y ys =>
      right
      rw [List.getLast?_append, List.getLast?_cons, Option.some_or] at h
      rwa [List.getLast?_cons]

/-- Every buffer is a first delimited item and more, or has no delimiter at all. -/
theorem exists_item_or_notMem (delim : α) (xs : List α) :
    (∃ item more, delim ∉ item ∧ xs = item ++ delim :: more) ∨ delim ∉ xs := by
  by_cases h : delim ∈ xs
  · obtain ⟨item, more, rfl, hn⟩ := List.eq_append_cons_of_mem h
    exact .inl ⟨item, more, hn, rfl⟩
  · exact .inr h

/-- Induction over the delimited items of a buffer. -/
@[elab_as_elim]
theorem item_induction (delim : α) {P : List α → Prop} (last : ∀ xs, delim ∉ xs → P xs)
    (item : ∀ item more, delim ∉ item → P more → P (item ++ delim :: more)) (xs : List α) :
    P xs := by
  induction hn : xs.length using Nat.strong_induction_on generalizing xs with
  | _ n ih =>
    rcases exists_item_or_notMem delim xs with ⟨first, more, hfirst, rfl⟩ | h
    · have hlt : more.length < n := by
        rw [← hn, List.length_append, List.length_cons]
        omega
      exact item first more hfirst (ih more.length hlt more rfl)
    · exact last xs h

theorem openItem_eq_nil_iff {delim : α} {xs : List α} :
    openItem delim xs = [] ↔ Terminated delim xs := by
  induction xs using item_induction delim with
  | item item more _ ih =>
    have hitem : Terminated delim (item ++ [delim]) := .inr (by simp)
    have hsplit : item ++ delim :: more = item ++ [delim] ++ more := by simp
    rw [openItem_append_cons, hsplit, terminated_append_iff hitem]
    exact ih
  | last xs h =>
    rw [openItem_of_notMem h]
    refine ⟨.inl, ?_⟩
    rintro (h' | h')
    · exact h'
    · exact absurd (List.mem_of_getLast? h') h

end Items

end Ctguard
