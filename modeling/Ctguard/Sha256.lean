import Ctguard.BinaryFormat
import Mathlib.Logic.Function.Basic

/-!
# The digest of a file

`SHA256_Init`, `SHA256_Update`, `SHA256_Final` and `SHA256_End`, as they run on a machine that
stores the lowest byte of a word first. The buffer of a context takes the bytes that do not fill a
block yet; but it is also the memory for the sixteen words of a transformation, whose data may be
the buffer itself.
-/

namespace Ctguard.Sha2

/-- `SHA256_BLOCK_LENGTH`. -/
def blockLength : ℕ := 64

/-- `SHA256_SHORT_BLOCK_LENGTH`. -/
def shortBlockLength : ℕ := 56

/-- `REVERSE32`. -/
def reverse32 (w : UInt32) : UInt32 :=
  let tmp := (w >>> 16) ||| (w <<< 16)
  ((tmp &&& 0xff00ff00) >>> 8) ||| ((tmp &&& 0x00ff00ff) <<< 8)

/-- `REVERSE64`. -/
def reverse64 (w : UInt64) : UInt64 :=
  let tmp := (w >>> 32) ||| (w <<< 32)
  let tmp := ((tmp &&& 0xff00ff00ff00ff00) >>> 8) ||| ((tmp &&& 0x00ff00ff00ff00ff) <<< 8)
  ((tmp &&& 0xffff0000ffff0000) >>> 16) ||| ((tmp &&& 0x0000ffff0000ffff) <<< 16)

section Functions

def R (b x : UInt32) : UInt32 := x >>> b

def S32 (b x : UInt32) : UInt32 := (x >>> b) ||| (x <<< (32 - b))

def ch (x y z : UInt32) : UInt32 := (x &&& y) ^^^ (~~~x &&& z)

def maj (x y z : UInt32) : UInt32 := (x &&& y) ^^^ (x &&& z) ^^^ (y &&& z)

/-- `Sigma0_256`. -/
def bigSigma0 (x : UInt32) : UInt32 := S32 2 x ^^^ S32 13 x ^^^ S32 22 x

/-- `Sigma1_256`. -/
def bigSigma1 (x : UInt32) : UInt32 := S32 6 x ^^^ S32 11 x ^^^ S32 25 x

/-- `sigma0_256`. -/
def sigma0 (x : UInt32) : UInt32 := S32 7 x ^^^ S32 18 x ^^^ R 3 x

/-- `sigma1_256`. -/
def sigma1 (x : UInt32) : UInt32 := S32 17 x ^^^ S32 19 x ^^^ R 10 x

end Functions

/-- `K256`. -/
def k256 : List UInt32 := [
  0x428a2f98, 0x71374491, 0xb5c0fbcf, 0xe9b5dba5,
  0x3956c25b, 0x59f111f1, 0x923f82a4, 0xab1c5ed5,
  0xd807aa98, 0x12835b01, 0x243185be, 0x550c7dc3,
  0x72be5d74, 0x80deb1fe, 0x9bdc06a7, 0xc19bf174,
  0xe49b69c1, 0xefbe4786, 0x0fc19dc6, 0x240ca1cc,
  0x2de92c6f, 0x4a7484aa, 0x5cb0a9dc, 0x76f988da,
  0x983e5152, 0xa831c66d, 0xb00327c8, 0xbf597fc7,
  0xc6e00bf3, 0xd5a79147, 0x06ca6351, 0x14292967,
  0x27b70a85, 0x2e1b2138, 0x4d2c6dfc, 0x53380d13,
  0x650a7354, 0x766a0abb, 0x81c2c92e, 0x92722c85,
  0xa2bfe8a1, 0xa81a664b, 0xc24b8b70, 0xc76c51a3,
  0xd192e819, 0xd6990624, 0xf40e3585, 0x106aa070,
  0x19a4c116, 0x1e376c08, 0x2748774c, 0x34b0bcb5,
  0x391c0cb3, 0x4ed8aa4a, 0x5b9cca4f, 0x682e6ff3,
  0x748f82ee, 0x78a5636f, 0x84c87814, 0x8cc70208,
  0x90befffa, 0xa4506ceb, 0xbef9a3f7, 0xc67178f2]

def constant (j : ℕ) : UInt32 := k256.getD j 0

/-- The variables `a` to `h`, and the words of `state`. -/
structure Registers where
  a : UInt32
  b : UInt32
  c : UInt32
  d : UInt32
  e : UInt32
  f : UInt32
  g : UInt32
  h : UInt32
  deriving DecidableEq

namespace Registers

def words (r : Registers) : List UInt32 := [r.a, r.b, r.c, r.d, r.e, r.f, r.g, r.h]

/-- The new values are added to the old ones. -/
def add (r q : Registers) : Registers :=
  ⟨r.a + q.a, r.b + q.b, r.c + q.c, r.d + q.d, r.e + q.e, r.f + q.f, r.g + q.g, r.h + q.h⟩

/-- One round with the word that it takes from the message. -/
def round (j : ℕ) (w : UInt32) (r : Registers) : Registers :=
  let t1 := r.h + bigSigma1 r.e + ch r.e r.f r.g + constant j + w
  let t2 := bigSigma0 r.a + maj r.a r.b r.c
  ⟨t1 + t2, r.a, r.b, r.c, r.d + t1, r.e, r.f, r.g⟩

end Registers

/-- `sha256_initial_hash_value`. -/
def initialHashValue : Registers where
  a := 0x6a09e667
  b := 0xbb67ae85
  c := 0x3c6ef372
  d := 0xa54ff53a
  e := 0x510e527f
  f := 0x9b05688c
  g := 0x1f83d9ab
  h := 0x5be0cd19

section Memory

/-- The word at an index of some memory. -/
def loadWord (bs : Bytes) (j : ℕ) : UInt32 :=
  (bs.getD (4 * j) 0).toUInt32 ||| ((bs.getD (4 * j + 1) 0).toUInt32 <<< 8) |||
    ((bs.getD (4 * j + 2) 0).toUInt32 <<< 16) ||| ((bs.getD (4 * j + 3) 0).toUInt32 <<< 24)

def storeWord (w : UInt32) : Bytes :=
  [w.toUInt8, (w >>> 8).toUInt8, (w >>> 16).toUInt8, (w >>> 24).toUInt8]

/-- `*(sha2_word64*)p = w`. -/
def storeWord64 (w : UInt64) : Bytes :=
  [w.toUInt8, (w >>> 8).toUInt8, (w >>> 16).toUInt8, (w >>> 24).toUInt8, (w >>> 32).toUInt8,
    (w >>> 40).toUInt8, (w >>> 48).toUInt8, (w >>> 56).toUInt8]

/-- `MEMCPY_BCOPY` and `MEMSET_BZERO`, into a part of some memory. -/
def writeAt (memory : Bytes) (i : ℕ) (bs : Bytes) : Bytes :=
  memory.take i ++ bs ++ memory.drop (i + bs.length)

def zeros (n : ℕ) : Bytes := List.replicate n 0

end Memory

/-- `SHA256_CTX`. -/
structure Context where
  state : Registers
  bitcount : UInt64
  buffer : Bytes
  deriving DecidableEq

/-- `SHA256_Init`. -/
def init : Context where
  state := initialHashValue
  bitcount := 0
  buffer := zeros blockLength

/-- What the second argument of `SHA256_Transform` points to. -/
inductive Data where
  | buffer
  | bytes (bs : Bytes)

/-- The word of the data, while the words of the context are being written. -/
def Data.word (data : Data) (w256 : ℕ → UInt32) (j : ℕ) : UInt32 :=
  match data with
  | .buffer => w256 j
  | .bytes bs => loadWord bs j

/-- The first sixteen rounds. The words are copied on the way. -/
def roundTo15 (data : Data) (s : Registers × (ℕ → UInt32)) (j : ℕ) :
    Registers × (ℕ → UInt32) :=
  let w256 := Function.update s.2 j (reverse32 (data.word s.2 j))
  (s.1.round j (w256 j), w256)

/-- The other rounds. Each of them replaces a word. -/
def roundFrom16 (s : Registers × (ℕ → UInt32)) (j : ℕ) : Registers × (ℕ → UInt32) :=
  let s0 := sigma0 (s.2 ((j + 1) &&& 0x0f))
  let s1 := sigma1 (s.2 ((j + 14) &&& 0x0f))
  let w256 := Function.update s.2 (j &&& 0x0f)
    (s.2 (j &&& 0x0f) + (s1 + s.2 ((j + 9) &&& 0x0f) + s0))
  (s.1.round j (w256 (j &&& 0x0f)), w256)

/-- `SHA256_Transform`. -/
def transform (data : Data) (context : Context) : Context :=
  let s := (List.range 16).foldl (roundTo15 data) (context.state, loadWord context.buffer)
  let s := (List.range' 16 48).foldl roundFrom16 s
  { context with
    state := context.state.add s.1, buffer := (List.range 16).flatMap fun j => storeWord (s.2 j) }

/-- The bytes of the buffer that are in use. -/
def Context.usedspace (context : Context) : ℕ := ((context.bitcount >>> 3) % 64).toNat

/-- `context->bitcount += len << 3`. -/
def Context.count (len : ℕ) (context : Context) : Context :=
  { context with bitcount := context.bitcount + (UInt64.ofNat len <<< 3) }

/-- The data behind a full buffer. -/
def updateBlocks (context : Context) (data : Bytes) : Context :=
  if blockLength ≤ data.length then
    updateBlocks ((transform (.bytes data) context).count blockLength) (data.drop blockLength)
  else if data = [] then context
  else { context.count data.length with buffer := writeAt context.buffer 0 data }
termination_by data.length
decreasing_by
  rw [List.length_drop]
  simp only [blockLength] at *
  omega

/-- `SHA256_Update`. -/
def update (context : Context) (data : Bytes) : Context :=
  if data = [] then context
  else
    let usedspace := context.usedspace
    if 0 < usedspace then
      let freespace := blockLength - usedspace
      if freespace ≤ data.length then
        let context :=
          { context.count freespace with
            buffer := writeAt context.buffer usedspace (data.take freespace) }
        updateBlocks (transform .buffer context) (data.drop freespace)
      else
        { context.count data.length with buffer := writeAt context.buffer usedspace data }
    else updateBlocks context data

/-- The last block, but for the count of bits. -/
def lastBlock (context : Context) : Context :=
  let usedspace := context.usedspace
  if 0 < usedspace then
    let buffer := writeAt context.buffer usedspace [0x80]
    let usedspace := usedspace + 1
    if usedspace ≤ shortBlockLength then
      { context with buffer := writeAt buffer usedspace (zeros (shortBlockLength - usedspace)) }
    else
      let buffer :=
        if usedspace < blockLength then writeAt buffer usedspace (zeros (blockLength - usedspace))
        else buffer
      let context := transform .buffer { context with buffer := buffer }
      { context with buffer := writeAt context.buffer 0 (zeros shortBlockLength) }
  else
    { context with
      buffer := writeAt (writeAt context.buffer 0 (zeros shortBlockLength)) 0 [0x80] }

/-- `SHA256_Final`: the digest. -/
def final (context : Context) : Bytes :=
  let bitcount := reverse64 context.bitcount
  let context := lastBlock context
  let context := { context with
    buffer := writeAt context.buffer shortBlockLength (storeWord64 bitcount) }
  let context := transform .buffer context
  context.state.words.flatMap fun w => storeWord (reverse32 w)

/-- `sha2_hex_digits`. -/
def hexDigits : List Char := "0123456789abcdef".toList

/-- `SHA256_End`: the digest as text. -/
def finish (context : Context) : List Char :=
  (final context).flatMap fun d : UInt8 =>
    [hexDigits.getD ((d &&& 0xf0) >>> 4).toNat '0', hexDigits.getD (d &&& 0x0f).toNat '0']

end Ctguard.Sha2
