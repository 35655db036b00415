/-! The SHA-1 digest of a byte string, by which routines are named in the log. -/
namespace TapeChain.Digest

/-- The message with a one bit, zeros and its length in bits, up to a multiple of 64 bytes. -/
def padded (message : List UInt8) : List UInt8 :=
  let size := message.length
  let zeros := (119 - size % 64) % 64
  let bits := 8 * size
  message ++ 0x80 :: List.replicate zeros 0 ++
    (List.range 8).map fun i => UInt8.ofNat (bits / Nat.pow 256 (7 - i))

/-- Big-endian words of four bytes. -/
def wordsOf : List UInt8 → List UInt32
  | a :: b :: c :: d :: rest =>
    (a.toUInt32 <<< 24 ||| b.toUInt32 <<< 16 ||| c.toUInt32 <<< 8 ||| d.toUInt32) :: wordsOf rest
  | _ => []

def rotate (x : UInt32) (n : UInt32) : UInt32 := x <<< n ||| x >>> (32 - n)

structure Registers where
  a : UInt32
  b : UInt32
  c : UInt32
  d : UInt32
  e : UInt32

def initial : Registers := ⟨0x67452301, 0xefcdab89, 0x98badcfe, 0x10325476, 0xc3d2e1f0⟩

/-- The mixing function and the constant of a round. -/
def round (i : Nat) (b c d : UInt32) : UInt32 × UInt32 :=
  if i < 20 then ((b &&& c) ||| (~~~b &&& d), 0x5a827999)
  else if i < 40 then (b ^^^ c ^^^ d, 0x6ed9eba1)
  else if i < 60 then ((b &&& c) ||| (b &&& d) ||| (c &&& d), 0x8f1bbcdc)
  else (b ^^^ c ^^^ d, 0xca62c1d6)

/-- The sixteen words of a block extended to eighty, the last first. -/
def extend : Nat → List UInt32 → List UInt32
  | 0, ws => ws
  | n + 1, ws =>
    extend n (rotate (ws.getD 2 0 ^^^ ws.getD 7 0 ^^^ ws.getD 13 0 ^^^ ws.getD 15 0) 1 :: ws)

def mix (r : Registers) (w : UInt32 × Nat) : Registers :=
  let (f, k) := round w.2 r.b r.c r.d
  ⟨rotate r.a 5 + f + r.e + k + w.1, r.a, rotate r.b 30, r.c, r.d⟩

def block (r : Registers) (words : List UInt32) : Registers :=
  let schedule := (extend 64 words.reverse).reverse
  let s := schedule.zipIdx.foldl mix r
  ⟨r.a + s.a, r.b + s.b, r.c + s.c, r.d + s.d, r.e + s.e⟩

/-- The words in blocks of sixteen; `fuel` bounds the number of blocks. -/
def blocks : Nat → Registers → List UInt32 → Registers
  | 0, r, _ => r
  | fuel + 1, r, words =>
    if words.isEmpty then r else blocks fuel (block r (words.take 16)) (words.drop 16)

def hexWord (w : UInt32) : List Char :=
  (List.range 8).map fun i => Nat.digitChar (w.toNat / Nat.pow 16 (7 - i) % 16)

/-- Forty hexadecimal digits. -/
def sha1 (message : List UInt8) : String :=
  let words := wordsOf (padded message)
  let r := blocks words.length initial words
  String.ofList ([r.a, r.b, r.c, r.d, r.e].flatMap hexWord)

end TapeChain.Digest
