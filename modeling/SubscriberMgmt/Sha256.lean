import SubscriberMgmt.Common
import SubscriberMgmt.Lib.CText

/-!
# SHA-256 and hexadecimal text (`sha256.c`)
-/

namespace SubscriberMgmt
open CText

def shaK : List UInt32 := [
  0x428a2f98, 0x71374491, 0xb5c0fbcf, 0xe9b5dba5, 0x3956c25b, 0x59f111f1, 0x923f82a4, 0xab1c5ed5,
  0xd807aa98, 0x12835b01, 0x243185be, 0x550c7dc3, 0x72be5d74, 0x80deb1fe, 0x9bdc06a7, 0xc19bf174,
  0xe49b69c1, 0xefbe4786, 0x0fc19dc6, 0x240ca1cc, 0x2de92c6f, 0x4a7484aa, 0x5cb0a9dc, 0x76f988da,
  0x983e5152, 0xa831c66d, 0xb00327c8, 0xbf597fc7, 0xc6e00bf3, 0xd5a79147, 0x06ca6351, 0x14292967,
  0x27b70a85, 0x2e1b2138, 0x4d2c6dfc, 0x53380d13, 0x650a7354, 0x766a0abb, 0x81c2c92e, 0x92722c85,
  0xa2bfe8a1, 0xa81a664b, 0xc24b8b70, 0xc76c51a3, 0xd192e819, 0xd6990624, 0xf40e3585, 0x106aa070,
  0x19a4c116, 0x1e376c08, 0x2748774c, 0x34b0bcb5, 0x391c0cb3, 0x4ed8aa4a, 0x5b9cca4f, 0x682e6ff3,
  0x748f82ee, 0x78a5636f, 0x84c87814, 0x8cc70208, 0x90befffa, 0xa4506ceb, 0xbef9a3f7, 0xc67178f2]

def rotr (x : UInt32) (n : UInt32) : UInt32 := (x >>> n) ||| (x <<< (32 - n))
def shaCh (x y z : UInt32) : UInt32 := (x &&& y) ^^^ (~~~x &&& z)
def shaMaj (x y z : UInt32) : UInt32 := (x &&& y) ^^^ (x &&& z) ^^^ (y &&& z)
def bsig0 (x : UInt32) : UInt32 := rotr x 2 ^^^ rotr x 13 ^^^ rotr x 22
def bsig1 (x : UInt32) : UInt32 := rotr x 6 ^^^ rotr x 11 ^^^ rotr x 25
def ssig0 (x : UInt32) : UInt32 := rotr x 7 ^^^ rotr x 18 ^^^ (x >>> 3)
def ssig1 (x : UInt32) : UInt32 := rotr x 17 ^^^ rotr x 19 ^^^ (x >>> 10)

structure ShaWords where
  a : UInt32
  b : UInt32
  c : UInt32
  d : UInt32
  e : UInt32
  f : UInt32
  g : UInt32
  h : UInt32

def blockWords : List UInt8 → List UInt32
  | b0 :: b1 :: b2 :: b3 :: bs =>
    ((b0.toUInt32 <<< 24) ||| (b1.toUInt32 <<< 16) ||| (b2.toUInt32 <<< 8) ||| b3.toUInt32) ::
      blockWords bs
  | _ => []

def extendWords : ℕ → List UInt32 → List UInt32
  | 0, w => w
  | n + 1, w =>
    let i := w.length
    extendWords n (w ++
      [ssig1 (w.getD (i - 2) 0) + w.getD (i - 7) 0 + ssig0 (w.getD (i - 15) 0) + w.getD (i - 16) 0])

def shaRound (s : ShaWords) (kw : UInt32 × UInt32) : ShaWords :=
  let t1 := s.h + bsig1 s.e + shaCh s.e s.f s.g + kw.1 + kw.2
  let t2 := bsig0 s.a + shaMaj s.a s.b s.c
  ⟨t1 + t2, s.a, s.b, s.c, s.d + t1, s.e, s.f, s.g⟩

def ShaWords.add (s t : ShaWords) : ShaWords :=
  ⟨s.a + t.a, s.b + t.b, s.c + t.c, s.d + t.d, s.e + t.e, s.f + t.f, s.g + t.g, s.h + t.h⟩

def sha256Transform (state : ShaWords) (block : List UInt8) : ShaWords :=
  let w := extendWords 48 (blockWords block)
  state.add ((shaK.zip w).foldl shaRound state)

/-- `sm_sha256_ctx_t`; `buffer` holds the first `buffer_len` bytes. -/
structure ShaCtx where
  state : ShaWords
  bitlen : UInt64
  buffer : List UInt8
  fits : buffer.length < 64

def smSha256Init : ShaCtx :=
  ⟨⟨0x6a09e667, 0xbb67ae85, 0x3c6ef372, 0xa54ff53a, 0x510e527f, 0x9b05688c, 0x1f83d9ab,
    0x5be0cd19⟩, 0, [], by decide⟩

def ShaCtx.absorb (ctx : ShaCtx) (chunk : List UInt8) : ShaCtx :=
  let buffer := ctx.buffer ++ chunk
  let bitlen := ctx.bitlen + UInt64.ofNat chunk.length * 8
  if h : buffer.length < 64 then ⟨ctx.state, bitlen, buffer, h⟩
  else ⟨sha256Transform ctx.state buffer, bitlen, [], by decide⟩

def smSha256Update (ctx : ShaCtx) (data : List UInt8) : ShaCtx :=
  match data with
  | [] => ctx
  | b :: bs =>
    let take := 64 - ctx.buffer.length
    smSha256Update (ctx.absorb ((b :: bs).take take)) ((b :: bs).drop take)
termination_by data.length
decreasing_by
  have := ctx.fits
  simp only [List.length_drop, List.length_cons]
  omega

/-- The zero bytes of the padding; at most 63 are needed. -/
def padZeros : ℕ → ShaCtx → ShaCtx
  | 0, ctx => ctx
  | n + 1, ctx => if ctx.buffer.length = 56 then ctx else padZeros n (smSha256Update ctx [0])

def wordBytes (x : UInt32) : List UInt8 :=
  [(x >>> 24).toUInt8, (x >>> 16).toUInt8, (x >>> 8).toUInt8, x.toUInt8]

def lengthBytes (bitlen : UInt64) : List UInt8 :=
  [(bitlen >>> 56).toUInt8, (bitlen >>> 48).toUInt8, (bitlen >>> 40).toUInt8,
    (bitlen >>> 32).toUInt8, (bitlen >>> 24).toUInt8, (bitlen >>> 16).toUInt8,
    (bitlen >>> 8).toUInt8, bitlen.toUInt8]

abbrev Digest := Vector UInt8 32

def ShaWords.digest (s : ShaWords) : Digest :=
  ⟨(wordBytes s.a ++ wordBytes s.b ++ wordBytes s.c ++ wordBytes s.d ++ wordBytes s.e ++
    wordBytes s.f ++ wordBytes s.g ++ wordBytes s.h).toArray, rfl⟩

def smSha256Final (ctx : ShaCtx) : Digest :=
  let padded := padZeros 64 (smSha256Update ctx [0x80])
  (sha256Transform padded.state (padded.buffer ++ lengthBytes ctx.bitlen)).digest

def smSha256 (data : List UInt8) : Digest := smSha256Final (smSha256Update smSha256Init data)

/-! ### Hexadecimal text -/

def hexChar (d : UInt8) : UInt8 := (lit "0123456789abcdef").getD d.toNat 0

def smHexEncode (data : List UInt8) : Str :=
  data.flatMap fun b : UInt8 => [hexChar ((b >>> 4) &&& 0x0F), hexChar (b &&& 0x0F)]

theorem smHexEncode_length (data : List UInt8) : (smHexEncode data).length = 2 * data.length := by
  induction data with
  | nil => rfl
  | cons b data ih =>
    simp only [smHexEncode] at ih
    simp only [smHexEncode, List.flatMap_cons, List.length_append, ih, List.length_cons,
      List.length_nil]
    omega

/-- `sm_hex_decode`; `mem` is the memory from `hex` on, which is also read
behind the end of the string. -/
def smHexDecode (mem : Str) : (len : ℕ) → Option (Vector UInt8 len)
  | 0 => some #v[]
  | len + 1 =>
    match smHexDecode mem len, scanHex 2 (cString (mem.drop (2 * len))) with
    | some v, some byte => some (v.push (UInt8.ofNat (byte % 256).toNat))
    | _, _ => none

end SubscriberMgmt
