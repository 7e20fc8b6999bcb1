import Ctguard.BlockStream
import Ctguard.Sha256
import Mathlib.Tactic.IntervalCases

/-!
# The digest of the standard

The digest of a message is defined on the whole of it: the message is padded, and its blocks are
compressed one after the other. What the context holds is what has been compressed so far, and the
bytes behind. The words of a transformation are left in the buffer, but nothing of them is ever
read as a part of the message.
-/

namespace Ctguard.Sha2

namespace Standard

/-- `ROTR`. -/
def rotr (n : ℕ) (x : UInt32) : UInt32 := ⟨x.toBitVec.rotateRight n⟩

def bigSigma0 (x : UInt32) : UInt32 := rotr 2 x ^^^ rotr 13 x ^^^ rotr 22 x

def bigSigma1 (x : UInt32) : UInt32 := rotr 6 x ^^^ rotr 11 x ^^^ rotr 25 x

def sigma0 (x : UInt32) : UInt32 := rotr 7 x ^^^ rotr 18 x ^^^ x >>> 3

def sigma1 (x : UInt32) : UInt32 := rotr 17 x ^^^ rotr 19 x ^^^ x >>> 10

/-- A word of a block, the highest byte first. -/
def word (block : Bytes) (t : ℕ) : UInt32 :=
  ((block.getD (4 * t) 0).toUInt32 <<< 24) ||| ((block.getD (4 * t + 1) 0).toUInt32 <<< 16) |||
    ((block.getD (4 * t + 2) 0).toUInt32 <<< 8) ||| (block.getD (4 * t + 3) 0).toUInt32

/-- The message schedule. -/
def schedule (block : Bytes) (t : ℕ) : UInt32 :=
  if t < 16 then word block t
  else sigma1 (schedule block (t - 2)) + schedule block (t - 7) + sigma0 (schedule block (t - 15)) +
    schedule block (t - 16)

def round (block : Bytes) (r : Registers) (t : ℕ) : Registers :=
  let t1 := r.h + bigSigma1 r.e + ch r.e r.f r.g + constant t + schedule block t
  let t2 := bigSigma0 r.a + maj r.a r.b r.c
  ⟨t1 + t2, r.a, r.b, r.c, r.d + t1, r.e, r.f, r.g⟩

def compress (hash : Registers) (block : Bytes) : Registers :=
  hash.add ((List.range 64).foldl (round block) hash)

/-- The bytes of a number, the highest first. -/
def bigEndian : ℕ → ℕ → Bytes
  | 0, _ => []
  | k + 1, n => (n / 256 ^ k % 256).toUInt8 :: bigEndian k n

/-- What is put behind a message of so many bytes: a bit, as few zeros as make the last block full,
and the number of its bits. -/
def padding (len : ℕ) : Bytes :=
  0x80 :: zeros ((119 - len % 64) % 64) ++ bigEndian 8 (8 * len)

def digest (m : Bytes) : Bytes :=
  (absorb blockLength compress initialHashValue (m ++ padding m.length)).1.words.flatMap
    fun w => bigEndian 4 w.toNat

/-- The digits of some bytes. -/
def hex (bs : Bytes) : List Char :=
  bs.flatMap fun d => [hexDigits.getD (d.toNat / 16) '0', hexDigits.getD (d.toNat % 16) '0']

end Standard

section Words

open Standard

theorem S32_eq_rotr (b x : UInt32) (hpos : 0 < b.toNat) (h : b.toNat < 32) :
    S32 b x = rotr b.toNat x := by
  apply UInt32.eq_of_toBitVec_eq
  simp [S32, rotr, UInt32.toBitVec_shiftRight, UInt32.toBitVec_shiftLeft,
    BitVec.rotateRight_def, Nat.mod_eq_of_lt h]
  congr 2
  omega

theorem bigSigma0_eq (x : UInt32) : bigSigma0 x = Standard.bigSigma0 x := by
  rw [bigSigma0, S32_eq_rotr, S32_eq_rotr, S32_eq_rotr]
  · rfl
  all_goals decide

theorem bigSigma1_eq (x : UInt32) : bigSigma1 x = Standard.bigSigma1 x := by
  rw [bigSigma1, S32_eq_rotr, S32_eq_rotr, S32_eq_rotr]
  · rfl
  all_goals decide

theorem sigma0_eq (x : UInt32) : sigma0 x = Standard.sigma0 x := by
  rw [sigma0, S32_eq_rotr, S32_eq_rotr, R]
  · rfl
  all_goals decide

theorem sigma1_eq (x : UInt32) : sigma1 x = Standard.sigma1 x := by
  rw [sigma1, S32_eq_rotr, S32_eq_rotr, R]
  · rfl
  all_goals decide

theorem round_eq (block : Bytes) (r : Registers) (t : ℕ) :
    r.round t (schedule block t) = Standard.round block r t := by
  rw [Registers.round, bigSigma0_eq, bigSigma1_eq, Standard.round]

theorem reverse32_loadWord (bs : Bytes) (j : ℕ) : reverse32 (loadWord bs j) = word bs j := by
  apply UInt32.eq_of_toBitVec_eq
  simp only [loadWord, word, reverse32, UInt32.toBitVec_or, UInt32.toBitVec_and,
    UInt32.toBitVec_shiftLeft, UInt32.toBitVec_shiftRight]
  apply BitVec.eq_of_getLsbD_eq
  intro i hi
  interval_cases i <;> simp

theorem toUInt8_shiftRight (w : UInt32) (k : ℕ) (hk : k < 4) :
    (w >>> UInt32.ofNat (8 * k)).toUInt8 = (w.toNat / 256 ^ k % 256).toUInt8 := by
  have hpower : 256 ^ k = 2 ^ (8 * k) := by rw [Nat.pow_mul]
  have hshift : 8 * k % 32 = 8 * k := Nat.mod_eq_of_lt (by omega)
  apply UInt8.toNat_inj.mp
  simp [hpower, hshift, Nat.shiftRight_eq_div_pow]

theorem toUInt8_shiftRight64 (w : UInt64) (k : ℕ) (hk : k < 8) :
    (w >>> UInt64.ofNat (8 * k)).toUInt8 = (w.toNat / 256 ^ k % 256).toUInt8 := by
  have hpower : 256 ^ k = 2 ^ (8 * k) := by rw [Nat.pow_mul]
  have hshift : 8 * k % 64 = 8 * k := Nat.mod_eq_of_lt (by omega)
  apply UInt8.toNat_inj.mp
  simp [hpower, hshift, Nat.shiftRight_eq_div_pow]

theorem storeWord_reverse32 (w : UInt32) : storeWord (reverse32 w) = bigEndian 4 w.toNat := by
  have hbytes : storeWord (reverse32 w) =
      [(w >>> 24).toUInt8, (w >>> 16).toUInt8, (w >>> 8).toUInt8, (w >>> 0).toUInt8] := by
    simp only [storeWord, List.cons.injEq, and_true]
    refine ⟨?_, ?_, ?_, ?_⟩
    all_goals
      apply UInt8.eq_of_toBitVec_eq
      apply BitVec.eq_of_getLsbD_eq
      intro i hi
      simp only [reverse32, UInt32.toBitVec_toUInt8, UInt32.toBitVec_or, UInt32.toBitVec_and,
        UInt32.toBitVec_shiftLeft, UInt32.toBitVec_shiftRight]
      interval_cases i <;> simp
  rw [hbytes]
  simp only [bigEndian, List.cons.injEq, and_true]
  exact ⟨toUInt8_shiftRight w 3 (by omega), toUInt8_shiftRight w 2 (by omega),
    toUInt8_shiftRight w 1 (by omega), toUInt8_shiftRight w 0 (by omega)⟩

theorem storeWord64_reverse64 (w : UInt64) : storeWord64 (reverse64 w) = bigEndian 8 w.toNat := by
  have hbytes : storeWord64 (reverse64 w) =
      [(w >>> 56).toUInt8, (w >>> 48).toUInt8, (w >>> 40).toUInt8, (w >>> 32).toUInt8,
        (w >>> 24).toUInt8, (w >>> 16).toUInt8, (w >>> 8).toUInt8, (w >>> 0).toUInt8] := by
    simp only [storeWord64, List.cons.injEq, and_true]
    refine ⟨?_, ?_, ?_, ?_, ?_, ?_, ?_, ?_⟩
    all_goals
      apply UInt8.eq_of_toBitVec_eq
      apply BitVec.eq_of_getLsbD_eq
      intro i hi
      simp only [reverse64, UInt64.toBitVec_toUInt8, UInt64.toBitVec_or, UInt64.toBitVec_and,
        UInt64.toBitVec_shiftLeft, UInt64.toBitVec_shiftRight]
      interval_cases i <;> simp
  rw [hbytes]
  simp only [bigEndian, List.cons.injEq, and_true]
  exact ⟨toUInt8_shiftRight64 w 7 (by omega), toUInt8_shiftRight64 w 6 (by omega),
    toUInt8_shiftRight64 w 5 (by omega), toUInt8_shiftRight64 w 4 (by omega),
    toUInt8_shiftRight64 w 3 (by omega), toUInt8_shiftRight64 w 2 (by omega),
    toUInt8_shiftRight64 w 1 (by omega), toUInt8_shiftRight64 w 0 (by omega)⟩

end Words

section Transform

open Standard

/-- The bytes that a transformation works on. -/
def Data.source (context : Context) : Data → Bytes
  | .buffer => context.buffer
  | .bytes bs => bs

theorem schedule_lt {block : Bytes} {t : ℕ} (h : t < 16) : schedule block t = word block t := by
  rw [schedule, if_pos h]

theorem schedule_ge {block : Bytes} {t : ℕ} (h : 16 ≤ t) : schedule block t =
    Standard.sigma1 (schedule block (t - 2)) + schedule block (t - 7) +
      Standard.sigma0 (schedule block (t - 15)) + schedule block (t - 16) := by
  rw [schedule, if_neg (by omega)]

/-- The words that have been copied are those of the schedule. The others are still what they
were, which matters if the data lie in the same place. -/
theorem foldl_roundTo15 (data : Data) (context : Context) {n : ℕ} (hn : n ≤ 16) :
    ∃ w, (List.range n).foldl (roundTo15 data) (context.state, loadWord context.buffer) =
        ((List.range n).foldl (Standard.round (data.source context)) context.state, w) ∧
      (∀ j < n, w j = schedule (data.source context) j) ∧
      ∀ j, n ≤ j → w j = loadWord context.buffer j := by
  induction n with
  | zero => exact ⟨_, rfl, by simp, fun _ _ => rfl⟩
  | succ n ih =>
    obtain ⟨w, hfold, hcopied, hrest⟩ := ih (by omega)
    have hword : reverse32 (data.word w n) = schedule (data.source context) n := by
      rw [schedule_lt (by omega), ← reverse32_loadWord]
      cases data with
      | buffer => rw [Data.word, hrest n (le_refl n), Data.source]
      | bytes bs => rfl
    refine ⟨Function.update w n (schedule (data.source context) n), ?_, ?_, ?_⟩
    · rw [List.range_succ, List.foldl_append, hfold, List.foldl_append]
      simp only [List.foldl_cons, List.foldl_nil, roundTo15, hword, Function.update_self, round_eq]
    · intro j hj
      by_cases hjn : j = n
      · rw [hjn, Function.update_self]
      · rw [Function.update_of_ne hjn, hcopied j (by omega)]
    · intro j hj
      rw [Function.update_of_ne (by omega), hrest j (by omega)]

/-- The last sixteen words of the schedule, each in the place of the one that it has replaced. -/
def Window (block : Bytes) (n : ℕ) (w : ℕ → UInt32) : Prop :=
  ∀ t < n, n ≤ t + 16 → w (t % 16) = schedule block t

theorem Window.round {block : Bytes} {n : ℕ} {w : ℕ → UInt32} (h : Window block n w)
    (hn : 16 ≤ n) (r : Registers) : ∃ w', roundFrom16 (r, w) n = (Standard.round block r n, w') ∧
      Window block (n + 1) w' := by
  have hslot : ∀ j : ℕ, j &&& 0x0f = j % 16 := fun j => Nat.and_two_pow_sub_one_eq_mod j 4
  have hread : ∀ k, k ≤ n → 0 < k → k ≤ 16 → w ((n - k) % 16) = schedule block (n - k) :=
    fun k hk hpos hle => h (n - k) (by omega) (by omega)
  have hword : w (n % 16) + (sigma1 (w ((n + 14) % 16)) + w ((n + 9) % 16) +
      sigma0 (w ((n + 1) % 16))) = schedule block n := by
    rw [show (n + 14) % 16 = (n - 2) % 16 by omega, show (n + 9) % 16 = (n - 7) % 16 by omega,
      show (n + 1) % 16 = (n - 15) % 16 by omega, show n % 16 = (n - 16) % 16 by omega,
      hread 2 (by omega) (by omega) (by omega), hread 7 (by omega) (by omega) (by omega),
      hread 15 (by omega) (by omega) (by omega), hread 16 (by omega) (by omega) (by omega),
      schedule_ge hn, sigma0_eq, sigma1_eq, UInt32.add_comm]
  refine ⟨Function.update w (n % 16) (schedule block n), ?_, ?_⟩
  · simp only [roundFrom16, hslot, hword, Function.update_self, round_eq]
  · intro t ht hle
    by_cases htn : t = n
    · rw [htn, Function.update_self]
    · rw [Function.update_of_ne (by omega), h t (by omega) (by omega)]

theorem foldl_roundFrom16 {block : Bytes} {w : ℕ → UInt32} (h : Window block 16 w) (r : Registers)
    (n : ℕ) : ∃ w', (List.range' 16 n).foldl roundFrom16 (r, w) =
      ((List.range' 16 n).foldl (Standard.round block) r, w') ∧ Window block (16 + n) w' := by
  induction n with
  | zero => exact ⟨w, rfl, h⟩
  | succ n ih =>
    obtain ⟨w', hfold, hwindow⟩ := ih
    obtain ⟨w'', hround, hwindow'⟩ := hwindow.round (by omega)
      ((List.range' 16 n).foldl (Standard.round block) r)
    refine ⟨w'', ?_, hwindow'⟩
    rw [List.range'_concat, List.foldl_append, hfold, List.foldl_append]
    simpa using hround

/-- A transformation compresses its data, wherever they lie. -/
theorem transform_state (data : Data) (context : Context) : (transform data context).state =
    compress context.state (data.source context) := by
  obtain ⟨w, hfold, hcopied, -⟩ := foldl_roundTo15 data context (le_refl 16)
  have hwindow : Window (data.source context) 16 w := by
    intro t ht _
    rw [Nat.mod_eq_of_lt ht, hcopied t ht]
  obtain ⟨w', hfold', -⟩ := foldl_roundFrom16 hwindow
    ((List.range 16).foldl (Standard.round (data.source context)) context.state) 48
  have hrange : List.range 64 = List.range 16 ++ List.range' 16 48 := by
    rw [List.range_eq_range', List.range_eq_range', List.range'_append_1]
  have htransform : (transform data context).state = context.state.add
      ((List.range' 16 48).foldl roundFrom16
        ((List.range 16).foldl (roundTo15 data) (context.state, loadWord context.buffer))).1 := by
    rw [transform]
  rw [htransform, hfold, hfold', compress, hrange, List.foldl_append]

theorem transform_bitcount (data : Data) (context : Context) :
    (transform data context).bitcount = context.bitcount := by
  rw [transform]

theorem length_storeWords (w : ℕ → UInt32) :
    ((List.range 16).flatMap fun j => storeWord (w j)).length = blockLength := by
  simp [storeWord, blockLength]

theorem length_transform_buffer (data : Data) (context : Context) :
    (transform data context).buffer.length = blockLength := by
  rw [transform]
  exact length_storeWords _

end Transform

section Memory

variable {memory p : Bytes}

/-- What is written behind the part that is known extends it. -/
theorem writeAt_extends (h : p <+: memory) (bs : Bytes)
    (hroom : p.length + bs.length ≤ memory.length) :
    p ++ bs <+: writeAt memory p.length bs ∧
      (writeAt memory p.length bs).length = memory.length := by
  obtain ⟨rest, rfl⟩ := h
  rw [writeAt, List.take_left, List.length_append] at *
  refine ⟨List.prefix_append _ _, ?_⟩
  rw [List.length_append, List.length_append, List.length_drop, List.length_append]
  omega

theorem writeAt_start {bs : Bytes} (h : bs.length ≤ memory.length) :
    bs <+: writeAt memory 0 bs ∧ (writeAt memory 0 bs).length = memory.length :=
  writeAt_extends List.nil_prefix bs (by simpa using h)

end Memory

section Update

open Standard

/-- What a context holds of a message. -/
structure Holds (m : Bytes) (context : Context) : Prop where
  bitcount : context.bitcount = UInt64.ofNat (8 * m.length)
  state : context.state = (absorb blockLength compress initialHashValue m).1
  length : context.buffer.length = blockLength
  starts : (absorb blockLength compress initialHashValue m).2 <+: context.buffer

variable {m data : Bytes} {context : Context}

theorem holds_init : Holds [] init where
  bitcount := rfl
  state := by rw [absorb_short (by decide)]; rfl
  length := by decide
  starts := by
    rw [absorb_short (by decide)]
    exact List.nil_prefix

theorem length_pending (m : Bytes) :
    (absorb blockLength compress initialHashValue m).2.length = m.length % 64 :=
  length_absorb (by decide)

theorem Holds.usedspace (h : Holds m context) : context.usedspace = m.length % 64 := by
  rw [Context.usedspace, h.bitcount]
  simp only [UInt64.toNat_mod, UInt64.toNat_shiftRight, UInt64.toNat_ofNat', UInt64.reduceToNat]
  rw [Nat.shiftRight_eq_div_pow, show 2 ^ (3 % 64) = 8 from rfl]
  omega

theorem count_bitcount {l : ℕ} (h : context.bitcount = UInt64.ofNat (8 * l)) (len : ℕ) :
    (context.count len).bitcount = UInt64.ofNat (8 * (l + len)) := by
  apply UInt64.toNat_inj.mp
  rw [Context.count, h]
  simp only [UInt64.toNat_add, UInt64.toNat_shiftLeft, UInt64.toNat_ofNat', UInt64.reduceToNat]
  rw [Nat.shiftLeft_eq, show 2 ^ (3 % 64) = 8 from rfl]
  omega

@[simp] theorem count_state (context : Context) (len : ℕ) :
    (context.count len).state = context.state := rfl

@[simp] theorem count_buffer (context : Context) (len : ℕ) :
    (context.count len).buffer = context.buffer := rfl

/-- A word of a block lies within the block. -/
theorem compress_take (hash : Registers) (bs : Bytes) :
    compress hash (bs.take blockLength) = compress hash bs := by
  have hget : ∀ i < 64, (bs.take blockLength).getD i 0 = bs.getD i 0 := by
    intro i hi
    rw [List.getD_eq_getElem?_getD, List.getD_eq_getElem?_getD, blockLength,
      List.getElem?_take_of_lt hi]
  have hword : ∀ t < 16, word (bs.take blockLength) t = word bs t := by
    intro t ht
    rw [word, word, hget _ (by omega), hget _ (by omega), hget _ (by omega), hget _ (by omega)]
  have hschedule : ∀ t, schedule (bs.take blockLength) t = schedule bs t := by
    intro t
    induction t using Nat.strong_induction_on with
    | _ t ih =>
      by_cases ht : t < 16
      · rw [schedule_lt ht, schedule_lt ht, hword t ht]
      · rw [schedule_ge (t := t) (by omega), ih _ (by omega), ih _ (by omega), ih _ (by omega),
          ih _ (by omega), schedule_ge (t := t) (by omega)]
  have hround : Standard.round (bs.take blockLength) = Standard.round bs := by
    funext r t
    rw [Standard.round, Standard.round, hschedule]
  rw [compress, compress, hround]

theorem pending_nil (h : m.length % 64 = 0) :
    (absorb blockLength compress initialHashValue m).2 = [] :=
  List.eq_nil_of_length_eq_zero (by rw [length_pending, h])

/-- Behind full blocks, a message is taken in from the state of the context. -/
theorem Holds.absorb_append (h : Holds m context) (hfull : m.length % 64 = 0) (data : Bytes) :
    absorb blockLength compress initialHashValue (m ++ data) =
      absorb blockLength compress context.state data := by
  rw [Ctguard.absorb_append (by decide), pending_nil hfull, h.state, List.nil_append]

/-- Full blocks are compressed where they lie, and the rest is copied. -/
theorem Holds.updateBlocks (h : Holds m context) (data : Bytes) (hfull : m.length % 64 = 0) :
    Holds (m ++ data) (updateBlocks context data) := by
  induction context, data using updateBlocks.induct generalizing m with
  | case1 context data hlong ih =>
    have hlength : (data.take blockLength).length = blockLength := by
      rw [List.length_take]
      omega
    have habsorb := (h.absorb_append hfull (data.take blockLength)).trans
      (absorb_block (by decide) hlength)
    have hnext : Holds (m ++ data.take blockLength)
        ((transform (.bytes data) context).count blockLength) := by
      refine ⟨?_, ?_, ?_, ?_⟩
      · have hcount := count_bitcount
          ((transform_bitcount (.bytes data) context).trans h.bitcount) blockLength
        rw [hcount, List.length_append, hlength]
      · rw [habsorb, compress_take, count_state, transform_state, Data.source]
      · rw [count_buffer, length_transform_buffer]
      · rw [habsorb]
        exact List.nil_prefix
    rw [Sha2.updateBlocks, if_pos hlong]
    have hrest := ih hnext (by
      rw [List.length_append, hlength, blockLength]
      omega)
    rwa [List.append_assoc, List.take_append_drop] at hrest
  | case2 context hshort =>
    rw [Sha2.updateBlocks, if_neg hshort, if_pos rfl, List.append_nil]
    exact h
  | case3 context data hshort hsome =>
    have habsorb := (h.absorb_append hfull data).trans (absorb_short (by omega))
    have hroom : data.length ≤ context.buffer.length := by
      rw [h.length]
      omega
    obtain ⟨hstarts, hlength⟩ := writeAt_start hroom
    rw [Sha2.updateBlocks, if_neg hshort, if_neg hsome]
    refine ⟨?_, ?_, ?_, ?_⟩
    · rw [List.length_append]
      exact count_bitcount h.bitcount data.length
    · rw [habsorb]
      rfl
    · exact hlength.trans h.length
    · rw [habsorb]
      exact hstarts

/-- The bytes of a message, and more that has been written behind them. -/
theorem Holds.extends (h : Holds m context) {bs : Bytes}
    (hroom : m.length % 64 + bs.length ≤ blockLength) :
    (absorb blockLength compress initialHashValue m).2 ++ bs <+:
        writeAt context.buffer (m.length % 64) bs ∧
      (writeAt context.buffer (m.length % 64) bs).length = blockLength := by
  have hextends := writeAt_extends h.starts bs (by rwa [length_pending, h.length])
  rwa [length_pending, h.length] at hextends

/-- A buffer that has been filled is compressed, and nothing is pending. -/
theorem Holds.fill (h : Holds m context) {bs : Bytes}
    (hfull : m.length % 64 + bs.length = blockLength) :
    Holds (m ++ bs) (transform .buffer { context.count bs.length with
      buffer := writeAt context.buffer (m.length % 64) bs }) := by
  obtain ⟨hstarts, hlength⟩ := h.extends (Nat.le_of_eq hfull)
  have hbuffer := hstarts.eq_of_length (by
    rw [List.length_append, length_pending, hfull, hlength])
  have habsorb : absorb blockLength compress initialHashValue (m ++ bs) =
      (compress context.state (writeAt context.buffer (m.length % 64) bs), []) := by
    rw [Ctguard.absorb_append (by decide), ← h.state, hbuffer]
    exact absorb_block (by decide) hlength
  refine ⟨?_, ?_, ?_, ?_⟩
  · rw [transform_bitcount, List.length_append]
    exact count_bitcount h.bitcount bs.length
  · rw [transform_state, habsorb]
    rfl
  · exact length_transform_buffer _ _
  · rw [habsorb]
    exact List.nil_prefix

/-- An update holds the longer message, whatever its length is. -/
theorem Holds.update (h : Holds m context) (data : Bytes) :
    Holds (m ++ data) (update context data) := by
  rw [Sha2.update]
  split
  · rename_i hnone
    rw [hnone, List.append_nil]
    exact h
  · rw [h.usedspace]
    simp only
    split
    · split
      · rename_i hlong
        have hlength : (data.take (blockLength - m.length % 64)).length =
            blockLength - m.length % 64 := by
          rw [List.length_take]
          omega
        have hfull : m.length % 64 + (data.take (blockLength - m.length % 64)).length =
            blockLength := by
          rw [hlength, blockLength]
          omega
        have hfilled := h.fill hfull
        rw [hlength] at hfilled
        have hrest := hfilled.updateBlocks (data.drop (blockLength - m.length % 64)) (by
          rw [List.length_append, hlength, blockLength]
          omega)
        rwa [List.append_assoc, List.take_append_drop] at hrest
      · rename_i hshort
        have hroom : m.length % 64 + data.length ≤ blockLength := by omega
        obtain ⟨hstarts, hlength⟩ := h.extends hroom
        have habsorb : absorb blockLength compress initialHashValue (m ++ data) =
            (context.state, (absorb blockLength compress initialHashValue m).2 ++ data) := by
          rw [Ctguard.absorb_append (by decide), ← h.state]
          apply absorb_short
          rw [List.length_append, length_pending]
          omega
        refine ⟨?_, ?_, ?_, ?_⟩
        · rw [List.length_append]
          exact count_bitcount h.bitcount data.length
        · rw [habsorb]
          rfl
        · exact hlength
        · rw [habsorb]
          exact hstarts
    · exact h.updateBlocks data (by omega)

end Update

section Final

open Standard

variable {m : Bytes} {context : Context}

theorem absorb_two {s : Registers} {bs bs' : Bytes} (h : bs.length = blockLength)
    (h' : bs'.length = blockLength) : absorb blockLength compress s (bs ++ bs') =
      (compress (compress s bs) bs', []) := by
  rw [Ctguard.absorb_append (by decide), absorb_block (by decide) h]
  exact absorb_block (by decide) h'

/-- The last block is complete but for the count of bits. -/
theorem Holds.lastBlock (h : Holds m context) : ∃ p : Bytes,
    p.length = shortBlockLength ∧ p <+: (lastBlock context).buffer ∧
      (lastBlock context).buffer.length = blockLength ∧
      ∀ w : Bytes, w.length = 8 → absorb blockLength compress initialHashValue
          (m ++ (0x80 :: zeros ((119 - m.length % 64) % 64) ++ w)) =
        (compress (lastBlock context).state (p ++ w), []) := by
  have hpending := length_pending m
  have hmod : m.length % 64 < 64 := Nat.mod_lt _ (by decide)
  generalize hrest : (absorb blockLength compress initialHashValue m).2 = rest at hpending
  have hstarts := h.starts
  rw [hrest] at hstarts
  have habsorb : ∀ data, absorb blockLength compress initialHashValue (m ++ data) =
      absorb blockLength compress context.state (rest ++ data) := by
    intro data
    rw [Ctguard.absorb_append (by decide), hrest, h.state]
  have hmark : rest ++ [0x80] <+: writeAt context.buffer (m.length % 64) [0x80] ∧
      (writeAt context.buffer (m.length % 64) [0x80]).length = blockLength := by
    rw [← hrest]
    exact h.extends (by simp only [List.length_singleton, blockLength]; omega)
  have hlength : (rest ++ [0x80]).length = m.length % 64 + 1 := by
    rw [List.length_append, hpending, List.length_singleton]
  rw [Sha2.lastBlock, h.usedspace]
  simp only
  split
  · split
    · rename_i hshort
      rw [shortBlockLength] at hshort
      obtain ⟨hpad, hfull⟩ := writeAt_extends hmark.1
        (zeros (shortBlockLength - (m.length % 64 + 1))) (by
          rw [hlength, hmark.2, zeros, List.length_replicate, shortBlockLength, blockLength]
          omega)
      rw [hlength] at hpad hfull
      refine ⟨_, ?_, hpad, hfull.trans hmark.2, fun w hw => ?_⟩
      · rw [List.length_append, hlength, zeros, List.length_replicate, shortBlockLength]
        omega
      · have hzeros : (119 - m.length % 64) % 64 = shortBlockLength - (m.length % 64 + 1) := by
          rw [shortBlockLength]
          omega
        rw [habsorb, hzeros, absorb_block (by decide)]
        · simp
        · simp only [List.length_append, List.length_cons, zeros, List.length_replicate, hpending,
            hw, shortBlockLength, blockLength]
          omega
    · rename_i hlong
      rw [shortBlockLength] at hlong
      have hfull : (if m.length % 64 + 1 < blockLength then
          writeAt (writeAt context.buffer (m.length % 64) [0x80]) (m.length % 64 + 1)
            (zeros (blockLength - (m.length % 64 + 1)))
          else writeAt context.buffer (m.length % 64) [0x80]) =
          rest ++ [0x80] ++ zeros (blockLength - (m.length % 64 + 1)) := by
        split
        · obtain ⟨hpad, hfull⟩ := writeAt_extends hmark.1
            (zeros (blockLength - (m.length % 64 + 1))) (by
              rw [hlength, hmark.2, zeros, List.length_replicate, blockLength]
              omega)
          rw [hlength] at hpad hfull
          refine (hpad.eq_of_length ?_).symm
          rw [hfull, hmark.2, List.length_append, hlength, zeros, List.length_replicate,
            blockLength]
          omega
        · rename_i hlast
          rw [blockLength] at hlast
          have hnone : blockLength - (m.length % 64 + 1) = 0 := by
            rw [blockLength]
            omega
          rw [hnone, zeros, List.replicate_zero, List.append_nil]
          refine (hmark.1.eq_of_length ?_).symm
          rw [hlength, hmark.2, blockLength]
          omega
      rw [hfull]
      generalize hfirst : rest ++ [0x80] ++ zeros (blockLength - (m.length % 64 + 1)) = first
      have hblock : first.length = blockLength := by
        rw [← hfirst, List.length_append, hlength, zeros, List.length_replicate, blockLength]
        omega
      have hbuffer := length_transform_buffer .buffer { context with buffer := first }
      have hstate := transform_state .buffer { context with buffer := first }
      obtain ⟨hpad, hsize⟩ := writeAt_start (show (zeros shortBlockLength).length ≤
        (transform .buffer { context with buffer := first }).buffer.length by rw [hbuffer]; decide)
      refine ⟨zeros shortBlockLength, by decide, hpad, hsize.trans hbuffer, fun w hw => ?_⟩
      have hzeros : zeros ((119 - m.length % 64) % 64) =
          zeros (blockLength - (m.length % 64 + 1)) ++ zeros shortBlockLength := by
        rw [zeros, zeros, zeros, List.replicate_append_replicate, shortBlockLength, blockLength]
        congr 1
        omega
      have hsplit : rest ++ (0x80 :: zeros ((119 - m.length % 64) % 64) ++ w) =
          first ++ (zeros shortBlockLength ++ w) := by
        rw [hzeros, ← hfirst]
        simp
      rw [habsorb, hsplit, absorb_two hblock, hstate, Data.source]
      rw [List.length_append, hw]
      decide
  · rename_i hunused
    have hnone : m.length % 64 = 0 := by omega
    obtain rfl : rest = [] := List.eq_nil_of_length_eq_zero (by rw [hpending, hnone])
    have hroom : (zeros shortBlockLength).length ≤ context.buffer.length := by
      rw [h.length]
      decide
    have hsize := (writeAt_start hroom).2.trans h.length
    have hbuffer : writeAt (writeAt context.buffer 0 (zeros shortBlockLength)) 0 [0x80] =
        0x80 :: zeros 55 ++ context.buffer.drop shortBlockLength := by
      rw [writeAt, writeAt]
      rfl
    refine ⟨0x80 :: zeros 55, by decide, ?_, ?_, fun w hw => ?_⟩
    · exact ⟨_, hbuffer.symm⟩
    · rw [hbuffer, List.length_append, List.length_drop, h.length]
      decide
    · rw [habsorb, hnone, List.nil_append]
      apply absorb_block (by decide)
      rw [List.length_append, hw]
      decide

theorem bigEndian_mod (k : ℕ) (n : ℕ) : bigEndian k (n % 256 ^ k) = bigEndian k n := by
  have hmod : ∀ j, j ≤ k → bigEndian j (n % 256 ^ k) = bigEndian j n := by
    intro j
    induction j with
    | zero => exact fun _ => rfl
    | succ j ih =>
      intro hj
      have hbyte : n % 256 ^ k / 256 ^ j % 256 = n / 256 ^ j % 256 := by
        obtain ⟨i, rfl⟩ := Nat.exists_eq_add_of_le hj
        rw [show j + 1 + i = j + (1 + i) by omega, pow_add, Nat.mod_mul_right_div_self, pow_add,
          pow_one, Nat.mod_mul_right_mod]
      rw [bigEndian, bigEndian, hbyte, ih (by omega)]
  exact hmod k (le_refl k)

/-- What a context holds has the digest of the standard. -/
theorem Holds.final (h : Holds m context) : final context = digest m := by
  obtain ⟨p, hp, hstarts, hlength, habsorb⟩ := h.lastBlock
  have hcount : storeWord64 (reverse64 context.bitcount) = bigEndian 8 (8 * m.length) := by
    rw [storeWord64_reverse64, h.bitcount, UInt64.toNat_ofNat']
    exact bigEndian_mod 8 (8 * m.length)
  obtain ⟨hfull, hsize⟩ := writeAt_extends hstarts (storeWord64 (reverse64 context.bitcount)) (by
    rw [hp, hlength]
    exact le_refl 64)
  rw [hp] at hfull hsize
  have hbuffer := hfull.eq_of_length (by
    rw [List.length_append, hp, hsize, hlength]
    rfl)
  have hstate : (transform .buffer { Sha2.lastBlock context with
      buffer := writeAt (Sha2.lastBlock context).buffer shortBlockLength
        (storeWord64 (reverse64 context.bitcount)) }).state =
      (absorb blockLength compress initialHashValue (m ++ padding m.length)).1 := by
    rw [transform_state, Data.source, ← hbuffer, padding, habsorb _ rfl, hcount]
  have hword : (fun w => storeWord (reverse32 w)) = fun w => bigEndian 4 w.toNat := by
    funext w
    exact storeWord_reverse32 w
  rw [Sha2.final, digest, hstate, hword]

theorem holds_foldl (h : Holds m context) (chunks : List Bytes) :
    Holds (m ++ chunks.flatten) (chunks.foldl update context) := by
  induction chunks generalizing m context with
  | nil =>
    rw [List.flatten_nil, List.append_nil]
    exact h
  | cons data chunks ih =>
    rw [List.flatten_cons, ← List.append_assoc]
    exact ih (h.update data)

theorem finish_eq (context : Context) : finish context = hex (final context) := by
  have hlow : ∀ d : UInt8, (d &&& 0x0f).toNat = d.toNat % 16 :=
    fun d => Nat.and_two_pow_sub_one_eq_mod d.toNat 4
  have hhigh : ∀ d : UInt8, ((d &&& 0xf0) >>> 4).toNat = d.toNat / 16 := by
    intro d
    have hlt := d.toNat_lt
    calc ((d &&& 0xf0) >>> 4).toNat = (d.toNat &&& 0xf0) >>> 4 := rfl
      _ = (d.toNat >>> 4) &&& 0x0f := Nat.shiftRight_and_distrib
      _ = d.toNat / 16 % 16 := by
        rw [Nat.shiftRight_eq_div_pow]
        exact Nat.and_two_pow_sub_one_eq_mod _ 4
      _ = d.toNat / 16 := Nat.mod_eq_of_lt (by omega)
  have hdigits : (fun d : UInt8 => [hexDigits.getD ((d &&& 0xf0) >>> 4).toNat '0',
      hexDigits.getD (d &&& 0x0f).toNat '0']) =
      fun d => [hexDigits.getD (d.toNat / 16) '0', hexDigits.getD (d.toNat % 16) '0'] := by
    funext d
    rw [hhigh, hlow]
  rw [finish, hdigits, hex]

/-- In whatever pieces a message comes, what is written is the digest of the standard. -/
theorem finish_updates (chunks : List Bytes) :
    finish (chunks.foldl update init) = hex (digest chunks.flatten) := by
  rw [finish_eq, (holds_foldl holds_init chunks).final, List.nil_append]

/-- The digest that the standard gives for `abc`. -/
example : hex (digest [97, 98, 99]) =
    "ba7816bf8f01cfea414140de5dae2223b00361a396177a9cb410ff61f20015ad".toList := by
  have hfinal : final (update init [97, 98, 99]) = digest [97, 98, 99] :=
    (holds_init.update [97, 98, 99]).final
  rw [← hfinal, ← finish_eq]
  decide +kernel

end Final

end Ctguard.Sha2
