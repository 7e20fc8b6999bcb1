import Mathlib.Algebra.Group.Nat.Defs
import Mathlib.Data.List.Basic
import Mathlib.Logic.Equiv.Defs

/-!
# Binary formats

A format writes values as bytes and reads a value from the front of some bytes. Reading
what was written gives the value back, and what reading consumes is as long as what is
written for the value. Formats are put in sequence and carried along equivalences.
-/

namespace Ctguard

universe u v

abbrev Bytes := List UInt8

structure BinaryFormat (α : Type u) where
  encode : α → Bytes
  decode : Bytes → Option (α × Bytes)
  decode_encode : ∀ a rest, decode (encode a ++ rest) = some (a, rest)
  decode_split : ∀ {bs a rest}, decode bs = some (a, rest) →
    ∃ used, bs = used ++ rest ∧ used.length = (encode a).length

/-- The `k` lowest digits of a number to the base of 256, the lowest first. -/
def littleEndian : ℕ → ℕ → Bytes
  | 0, _ => []
  | k + 1, n => UInt8.ofNat n :: littleEndian k (n / 256)

def fromLittleEndian : Bytes → ℕ
  | [] => 0
  | b :: bs => b.toNat + 256 * fromLittleEndian bs

@[simp] theorem length_littleEndian (k n : ℕ) : (littleEndian k n).length = k := by
  induction k generalizing n with
  | zero => rfl
  | succ k ih => simp [littleEndian, ih]

theorem fromLittleEndian_littleEndian {k n : ℕ} (h : n < 256 ^ k) :
    fromLittleEndian (littleEndian k n) = n := by
  induction k generalizing n with
  | zero =>
    have hzero : n = 0 := by simpa using h
    simp [littleEndian, fromLittleEndian, hzero]
  | succ k ih =>
    have hdiv : n / 256 < 256 ^ k := by
      apply Nat.div_lt_of_lt_mul
      rwa [Nat.pow_succ, Nat.mul_comm] at h
    rw [littleEndian, fromLittleEndian, ih hdiv, UInt8.toNat_ofNat']
    omega

/-- Replacing the highest digit by zero. -/
theorem dropLast_littleEndian (k n : ℕ) :
    (littleEndian (k + 1) n).dropLast ++ [0] = littleEndian (k + 1) (n % 256 ^ k) := by
  induction k generalizing n with
  | zero => simp [littleEndian, Nat.mod_one]
  | succ k ih =>
    have hne : littleEndian (k + 1) (n / 256) ≠ [] := by simp [littleEndian]
    have hlow : UInt8.ofNat (n % 256 ^ (k + 1)) = UInt8.ofNat n := by
      apply UInt8.toNat_inj.mp
      rw [UInt8.toNat_ofNat', UInt8.toNat_ofNat', Nat.pow_succ, Nat.mul_comm]
      exact Nat.mod_mul_right_mod n 256 (256 ^ k)
    have hhigh : n % 256 ^ (k + 1) / 256 = n / 256 % 256 ^ k := by
      rw [Nat.pow_succ, Nat.mul_comm, Nat.mod_mul_right_div_self]
    change (UInt8.ofNat n :: littleEndian (k + 1) (n / 256)).dropLast ++ [0] =
      UInt8.ofNat (n % 256 ^ (k + 1)) :: littleEndian (k + 1) (n % 256 ^ (k + 1) / 256)
    rw [List.dropLast_cons_of_ne_nil hne, List.cons_append, ih, hlow, hhigh]

namespace BinaryFormat

variable {α : Type u} {β : Type v}

/-- The front of some bytes, of which the last byte may have been replaced. -/
def Damaged (full bs : Bytes) : Prop :=
  ∃ n < full.length, bs.length = n + 1 ∧ bs.take n = full.take n

/-- Reading from a damaged front leaves nothing over. -/
def LeavesNothing (f : BinaryFormat α) : Prop :=
  ∀ a bs b rest, Damaged (f.encode a) bs → f.decode bs = some (b, rest) → rest = []

/-- Nothing is read from a damaged front that is too short. -/
def RefusesShort (f : BinaryFormat α) : Prop :=
  ∀ a bs, Damaged (f.encode a) bs → bs.length < (f.encode a).length → f.decode bs = none

theorem decode_nil {f : BinaryFormat α} (hne : ∀ a, f.encode a ≠ []) : f.decode [] = none := by
  cases h : f.decode [] with
  | none => rfl
  | some p =>
    obtain ⟨used, hnil, hlen⟩ := f.decode_split h
    rw [List.nil_eq_append_iff] at hnil
    rw [hnil.1, List.length_nil] at hlen
    exact absurd (List.eq_nil_of_length_eq_zero hlen.symm) (hne p.1)

def bool : BinaryFormat Bool where
  encode b := [if b then 1 else 0]
  decode
    | [] => none
    | b :: bs => some (b ≠ 0, bs)
  decode_encode b rest := by cases b <;> rfl
  decode_split {bs a rest} h := by
    cases bs with
    | nil => cases h
    | cons b bs =>
      obtain ⟨-, rfl⟩ := Prod.mk.inj (Option.some.inj h)
      exact ⟨[b], rfl, rfl⟩

def decodeUInt64 (bs : Bytes) : Option (UInt64 × Bytes) :=
  if 8 ≤ bs.length then some (.ofNat (fromLittleEndian (bs.take 8)), bs.drop 8) else none

theorem decodeUInt64_littleEndian {n : ℕ} (h : n < 2 ^ 64) (rest : Bytes) :
    decodeUInt64 (littleEndian 8 n ++ rest) = some (.ofNat n, rest) := by
  have hdigits : n < 256 ^ 8 := by omega
  simp [decodeUInt64, List.take_left' (length_littleEndian 8 n),
    List.drop_left' (length_littleEndian 8 n), fromLittleEndian_littleEndian hdigits]

/-- A 64-bit number as its eight bytes, the lowest first. -/
def uint64 : BinaryFormat UInt64 where
  encode n := littleEndian 8 n.toNat
  decode := decodeUInt64
  decode_encode n rest := by
    rw [decodeUInt64_littleEndian n.toNat_lt, UInt64.ofNat_toNat]
  decode_split {bs n rest} h := by
    unfold decodeUInt64 at h
    split_ifs at h with hlen
    obtain ⟨-, rfl⟩ := Prod.mk.inj (Option.some.inj h)
    refine ⟨bs.take 8, (List.take_append_drop 8 bs).symm, ?_⟩
    rw [List.length_take, Nat.min_eq_left hlen, length_littleEndian]

theorem bool_leavesNothing : bool.LeavesNothing := by
  rintro a bs b rest ⟨n, hn, hlen, -⟩ h
  have hone : bs.length = 1 := by
    have hshort : n < 1 := hn
    omega
  obtain ⟨c, rfl⟩ := List.length_eq_one_iff.mp hone
  obtain ⟨-, rfl⟩ := Prod.mk.inj (Option.some.inj h)
  rfl

theorem uint64_leavesNothing : uint64.LeavesNothing := by
  rintro a bs b rest ⟨n, hn, hlen, -⟩ h
  have hshort : n < 8 := by simpa [uint64] using hn
  change decodeUInt64 bs = _ at h
  unfold decodeUInt64 at h
  split_ifs at h with height
  obtain ⟨-, rfl⟩ := Prod.mk.inj (Option.some.inj h)
  apply List.drop_eq_nil_of_le
  omega

theorem uint64_refusesShort : uint64.RefusesShort := by
  intro a bs hdamaged hshort
  have hlt : bs.length < 8 := by simpa [uint64] using hshort
  exact if_neg (by omega)

/-- One value behind the other. -/
def seq (f : BinaryFormat α) (g : BinaryFormat β) : BinaryFormat (α × β) where
  encode p := f.encode p.1 ++ g.encode p.2
  decode bs :=
    match f.decode bs with
    | none => none
    | some (a, bs) => (g.decode bs).map fun p => ((a, p.1), p.2)
  decode_encode p rest := by simp [f.decode_encode, g.decode_encode]
  decode_split {bs p rest} h := by
    cases hf : f.decode bs with
    | none => simp [hf] at h
    | some q =>
      obtain ⟨a, bs'⟩ := q
      simp only [hf, Option.map_eq_some_iff] at h
      obtain ⟨⟨b, rest'⟩, hg, heq⟩ := h
      obtain ⟨rfl, rfl⟩ := Prod.mk.inj heq
      obtain ⟨used, rfl, hused⟩ := f.decode_split hf
      obtain ⟨used', rfl, hused'⟩ := g.decode_split hg
      exact ⟨used ++ used', by simp, by simp [hused, hused']⟩

/-- A damaged front of two parts ends in the first one, or is it with a damaged front of
the second one. -/
theorem Damaged.append {xs ys bs : Bytes} (h : Damaged (xs ++ ys) bs) :
    Damaged xs bs ∨ ∃ bs', bs = xs ++ bs' ∧ Damaged ys bs' := by
  obtain ⟨n, hn, hlen, htake⟩ := h
  rcases Nat.lt_or_ge n xs.length with hlt | hge
  · left
    refine ⟨n, hlt, hlen, ?_⟩
    rw [htake, List.take_append_of_le_length (Nat.le_of_lt hlt)]
  · right
    have hfront : bs.take xs.length = xs := by
      have hmin : bs.take xs.length = (bs.take n).take xs.length := by
        rw [List.take_take, Nat.min_eq_left hge]
      rw [hmin, htake, List.take_take, Nat.min_eq_left hge, List.take_left]
    refine ⟨bs.drop xs.length, ?_, n - xs.length, ?_, ?_, ?_⟩
    · rw [← hfront, List.length_take]
      simp only [List.length_append] at hn
      rw [Nat.min_eq_left (by omega), hfront, ← List.take_append_drop xs.length bs, hfront]
      simp
    · simp only [List.length_append] at hn
      omega
    · rw [List.length_drop]
      omega
    · rw [List.take_drop, Nat.add_sub_cancel' hge, htake, List.take_append,
        List.take_of_length_le hge, List.drop_left]

theorem seq_decode_front {f : BinaryFormat α} {g : BinaryFormat β} (a : α) (bs : Bytes) :
    (f.seq g).decode (f.encode a ++ bs) = (g.decode bs).map fun p => ((a, p.1), p.2) := by
  simp [seq, f.decode_encode]

theorem LeavesNothing.seq_refusesShort {f : BinaryFormat α} {g : BinaryFormat β}
    (hf : f.LeavesNothing) (hg : g.RefusesShort) (hne : ∀ b, g.encode b ≠ []) :
    (f.seq g).RefusesShort := by
  intro p bs hdamaged hshort
  rcases hdamaged.append with hfirst | ⟨bs', rfl, hsecond⟩
  · cases hdecode : f.decode bs with
    | none => simp [BinaryFormat.seq, hdecode]
    | some r =>
      obtain ⟨a, bs'⟩ := r
      obtain rfl := hf p.1 bs a bs' hfirst hdecode
      simp [BinaryFormat.seq, hdecode, decode_nil hne]
  · have hlt : bs'.length < (g.encode p.2).length := by
      simpa [BinaryFormat.seq] using hshort
    rw [seq_decode_front, hg p.2 bs' hsecond hlt]
    rfl

/-- The format of an equivalent type. -/
def congr (f : BinaryFormat α) (e : β ≃ α) : BinaryFormat β where
  encode b := f.encode (e b)
  decode bs := (f.decode bs).map fun p => (e.symm p.1, p.2)
  decode_encode b rest := by simp [f.decode_encode]
  decode_split {bs b rest} h := by
    obtain ⟨⟨a, rest'⟩, hf, heq⟩ := Option.map_eq_some_iff.mp h
    obtain ⟨rfl, rfl⟩ := Prod.mk.inj heq
    obtain ⟨used, hused, hlen⟩ := f.decode_split hf
    exact ⟨used, hused, by simpa using hlen⟩

theorem LeavesNothing.congr {f : BinaryFormat α} (h : f.LeavesNothing) (e : β ≃ α) :
    (f.congr e).LeavesNothing := by
  intro b bs b' rest hdamaged hdecode
  obtain ⟨⟨a, rest'⟩, hf, heq⟩ := Option.map_eq_some_iff.mp hdecode
  obtain ⟨-, rfl⟩ := Prod.mk.inj heq
  exact h (e b) bs a rest' hdamaged hf

theorem RefusesShort.congr {f : BinaryFormat α} (h : f.RefusesShort) (e : β ≃ α) :
    (f.congr e).RefusesShort := by
  intro b bs hdamaged hshort
  change (f.decode bs).map _ = none
  rw [h (e b) bs hdamaged hshort]
  rfl

theorem decode_encode_self (f : BinaryFormat α) (a : α) : f.decode (f.encode a) = some (a, []) := by
  simpa using f.decode_encode a []

/-- No value is read from fewer bytes than are written for it. -/
theorem length_le_of_decode {f : BinaryFormat α} {bs rest : Bytes} {a : α}
    (h : f.decode bs = some (a, rest)) : (f.encode a).length ≤ bs.length := by
  obtain ⟨used, rfl, hlen⟩ := f.decode_split h
  simp [← hlen]

end BinaryFormat

/-- A string whose length is a 64-bit number. -/
structure ByteString where
  bytes : Bytes
  length_lt : bytes.length < 2 ^ 64

@[ext] theorem ByteString.ext {s t : ByteString} (h : s.bytes = t.bytes) : s = t := by
  cases s
  cases t
  congr

instance : DecidableEq ByteString := fun _ _ => decidable_of_iff _ ⟨ByteString.ext, congrArg _⟩

namespace BinaryFormat

def decodeString (bs : Bytes) : Option (ByteString × Bytes) :=
  match decodeUInt64 bs with
  | none => none
  | some (n, bs) =>
    if n.toNat ≤ bs.length then
      some (⟨bs.take n.toNat, Nat.lt_of_le_of_lt (List.length_take_le _ _) n.toNat_lt⟩, bs.drop n.toNat)
    else none

theorem ByteString.toNat_length (s : ByteString) :
    (UInt64.ofNat s.bytes.length).toNat = s.bytes.length := by
  rw [UInt64.toNat_ofNat', Nat.mod_eq_of_lt s.length_lt]

/-- The length of a string, in eight bytes, and the string. -/
def string : BinaryFormat ByteString where
  encode s := littleEndian 8 s.bytes.length ++ s.bytes
  decode := decodeString
  decode_encode s rest := by
    rw [List.append_assoc, decodeString, decodeUInt64_littleEndian s.length_lt]
    simp only [ByteString.toNat_length, List.take_left, List.drop_left]
    rw [if_pos (by simp)]
  decode_split {bs s rest} h := by
    unfold decodeString at h
    split at h
    · cases h
    · rename_i n bs' hn
      split_ifs at h with hlen
      obtain ⟨rfl, rfl⟩ := Prod.mk.inj (Option.some.inj h)
      obtain ⟨used, rfl, hused⟩ := uint64.decode_split hn
      refine ⟨used ++ bs'.take n.toNat, by simp, ?_⟩
      have height : used.length = 8 := by simpa [uint64] using hused
      simp [height]

theorem encode_string (s : ByteString) :
    string.encode s = littleEndian 8 s.bytes.length ++ s.bytes := rfl

@[simp] theorem length_encode_string (s : ByteString) :
    (string.encode s).length = 8 + s.bytes.length := by
  simp [encode_string]

theorem string_leavesNothing : string.LeavesNothing := by
  intro s bs s' rest hdamaged h
  change decodeString bs = _ at h
  unfold decodeString at h
  split at h
  · cases h
  · rename_i n bs' hn
    split_ifs at h with hlen
    obtain ⟨-, rfl⟩ := Prod.mk.inj (Option.some.inj h)
    apply List.drop_eq_nil_of_le
    rcases Damaged.append hdamaged with hprefix | ⟨bs'', rfl, m, hm, hlast, -⟩
    · -- the length itself may be damaged, but nothing stands behind it
      have hlength : Damaged (uint64.encode (.ofNat s.bytes.length)) bs := by
        change Damaged (littleEndian 8 (UInt64.ofNat s.bytes.length).toNat) bs
        rwa [ByteString.toNat_length]
      simp [uint64_leavesNothing _ bs n bs' hlength hn]
    · rw [decodeUInt64_littleEndian s.length_lt] at hn
      obtain ⟨rfl, rfl⟩ := Prod.mk.inj (Option.some.inj hn)
      rw [ByteString.toNat_length]
      omega

end BinaryFormat

end Ctguard
