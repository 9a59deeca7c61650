import RecordGrammar.HexDigit

/-! # SHA-256 and the short keys cut from it -/

namespace RecordGrammar.Sha256

/-- The first 32 bits of the fractional parts of the cube roots of the first 64 primes. -/
def roundConstants : List UInt32 :=
  [0x428a2f98, 0x71374491, 0xb5c0fbcf, 0xe9b5dba5, 0x3956c25b, 0x59f111f1, 0x923f82a4, 0xab1c5ed5,
   0xd807aa98, 0x12835b01, 0x243185be, 0x550c7dc3, 0x72be5d74, 0x80deb1fe, 0x9bdc06a7, 0xc19bf174,
   0xe49b69c1, 0xefbe4786, 0x0fc19dc6, 0x240ca1cc, 0x2de92c6f, 0x4a7484aa, 0x5cb0a9dc, 0x76f988da,
   0x983e5152, 0xa831c66d, 0xb00327c8, 0xbf597fc7, 0xc6e00bf3, 0xd5a79147, 0x06ca6351, 0x14292967,
   0x27b70a85, 0x2e1b2138, 0x4d2c6dfc, 0x53380d13, 0x650a7354, 0x766a0abb, 0x81c2c92e, 0x92722c85,
   0xa2bfe8a1, 0xa81a664b, 0xc24b8b70, 0xc76c51a3, 0xd192e819, 0xd6990624, 0xf40e3585, 0x106aa070,
   0x19a4c116, 0x1e376c08, 0x2748774c, 0x34b0bcb5, 0x391c0cb3, 0x4ed8aa4a, 0x5b9cca4f, 0x682e6ff3,
   0x748f82ee, 0x78a5636f, 0x84c87814, 0x8cc70208, 0x90befffa, 0xa4506ceb, 0xbef9a3f7, 0xc67178f2]

/-- Eight words: the chaining value between blocks, and the working variables inside one. -/
structure Words where
  (a b c d e f g h : UInt32)
  deriving DecidableEq

def initial : Words :=
  ⟨0x6a09e667, 0xbb67ae85, 0x3c6ef372, 0xa54ff53a, 0x510e527f, 0x9b05688c, 0x1f83d9ab, 0x5be0cd19⟩

def Words.toList (w : Words) : List UInt32 := [w.a, w.b, w.c, w.d, w.e, w.f, w.g, w.h]

def Words.add (v w : Words) : Words :=
  ⟨v.a + w.a, v.b + w.b, v.c + w.c, v.d + w.d, v.e + w.e, v.f + w.f, v.g + w.g, v.h + w.h⟩

def rotate (x n : UInt32) : UInt32 := (x >>> n) ||| (x <<< (32 - n))

/-- One more word of the message schedule, from the words so far with the latest first. -/
def scheduled (latest : List UInt32) : UInt32 :=
  let near := latest.getD 1 0
  let far := latest.getD 14 0
  (rotate near 17 ^^^ rotate near 19 ^^^ (near >>> 10)) + latest.getD 6 0 +
    (rotate far 7 ^^^ rotate far 18 ^^^ (far >>> 3)) + latest.getD 15 0

def extend : Nat → List UInt32 → List UInt32
  | 0, latest => latest
  | n + 1, latest => extend n (scheduled latest :: latest)

def schedule (block : List UInt32) : List UInt32 := (extend 48 block.reverse).reverse

def round (v : Words) (k w : UInt32) : Words :=
  let choice := (v.e &&& v.f) ^^^ ((~~~ v.e) &&& v.g)
  let majority := (v.a &&& v.b) ^^^ (v.a &&& v.c) ^^^ (v.b &&& v.c)
  let first := v.h + (rotate v.e 6 ^^^ rotate v.e 11 ^^^ rotate v.e 25) + choice + k + w
  let second := (rotate v.a 2 ^^^ rotate v.a 13 ^^^ rotate v.a 22) + majority
  ⟨first + second, v.a, v.b, v.c, v.d + first, v.e, v.f, v.g⟩

def compress (chain : Words) (block : List UInt32) : Words :=
  chain.add ((roundConstants.zip (schedule block)).foldl (fun v kw => round v kw.1 kw.2) chain)

def wordsOfBytes : List UInt8 → List UInt32
  | a :: b :: c :: d :: rest =>
    ((a.toUInt32 <<< 24) ||| (b.toUInt32 <<< 16) ||| (c.toUInt32 <<< 8) ||| d.toUInt32) ::
      wordsOfBytes rest
  | _ => []

def absorb : Nat → Words → List UInt32 → Words
  | 0, chain, _ => chain
  | n + 1, chain, words => absorb n (compress chain (words.take 16)) (words.drop 16)

/-- A one bit, zeros up to a whole number of blocks, and the length in bits in the last eight
bytes. -/
def pad (message : List UInt8) : List UInt8 :=
  let zeros := List.replicate ((119 - message.length % 64) % 64) (0 : UInt8)
  let size := (List.range 8).map fun i => UInt8.ofNat ((8 * message.length) >>> (8 * (7 - i)))
  message ++ 0x80 :: (zeros ++ size)

def digest (message : List UInt8) : Words :=
  let words := wordsOfBytes (pad message)
  absorb (words.length / 16) initial words

def hexWord (w : UInt32) : List Char :=
  (List.range 8).map fun i => hexDigit (w.toNat >>> (4 * (7 - i)) % 16)

end Sha256

/-- The memo key of a canonical text: the first sixteen hexadecimal digits of its digest. -/
def memoKey (canonical : String) : String :=
  let digest := Sha256.digest (canonical.toList.flatMap String.utf8EncodeChar)
  String.ofList ((digest.toList.flatMap Sha256.hexWord).take 16)

end RecordGrammar
