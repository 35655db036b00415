import TapeChain.Packing.Adler

/-! Unpacking a DEFLATE stream: two header bytes, blocks of stored or Huffman-coded data, and a
checksum. What follows the checksum is ignored. -/
namespace TapeChain.Packing

inductive PackFault where
  | truncated
  | headerCheck
  | method
  | windowSize
  | needsDictionary
  | blockType
  | storedLengths
  | tooManySymbols
  | codeLengthsSet
  | lengthRepeat
  | noEndOfBlock
  | literalSet
  | distanceSet
  | literalCode
  | distanceCode
  | distanceTooFar
  | dataCheck
  deriving DecidableEq

/-- The reason a stream is refused; none for a stream that only lacks a dictionary. -/
def PackFault.reason? : PackFault → Option String
  | .truncated => some "incomplete or truncated stream"
  | .headerCheck => some "incorrect header check"
  | .method => some "unknown compression method"
  | .windowSize => some "invalid window size"
  | .needsDictionary => none
  | .blockType => some "invalid block type"
  | .storedLengths => some "invalid stored block lengths"
  | .tooManySymbols => some "too many length or distance symbols"
  | .codeLengthsSet => some "invalid code lengths set"
  | .lengthRepeat => some "invalid bit length repeat"
  | .noEndOfBlock => some "invalid code -- missing end-of-block"
  | .literalSet => some "invalid literal/lengths set"
  | .distanceSet => some "invalid distances set"
  | .literalCode => some "invalid literal/length code"
  | .distanceCode => some "invalid distance code"
  | .distanceTooFar => some "invalid distance too far back"
  | .dataCheck => some "incorrect data check"

def PackFault.status : PackFault → Int
  | .truncated => -5
  | .needsDictionary => 2
  | _ => -3

def PackFault.message (f : PackFault) : String :=
  s!"Error {f.status} while decompressing data" ++
    (match f.reason? with
    | some reason => ": " ++ reason
    | none => "")

/-! ### Bits -/

/-- The bit at an index; the lowest bit of a byte comes first. -/
def bitAt? (data : Bytes) (position : Nat) : Option Nat :=
  data[position / 8]?.map fun b => b.toNat / Nat.pow 2 (position % 8) % 2

/-- `count` bits from `position` on, the first one lowest. -/
def bitsAt (data : Bytes) (position : Nat) : Nat → Except PackFault Nat
  | 0 => .ok 0
  | count + 1 =>
    match bitAt? data position with
    | none => .error .truncated
    | some bit => (bitsAt data (position + 1) count).map fun rest => bit + 2 * rest

/-! ### Prefix codes -/

/-- A canonical code: how many codewords each length has, from length one on, and the symbols in
the order of their codewords. -/
structure PrefixCode where
  counts : List Nat
  symbols : Array Nat

def longestCode : Nat := 15

/-- The code with the given codeword lengths, zero standing for an unused symbol. -/
def PrefixCode.ofLengths (lengths : List Nat) : PrefixCode :=
  let longest := lengths.foldl max 0
  let pairs := lengths.zipIdx
  let used := (List.range longest).map fun i => pairs.filter fun p => p.1 = i + 1
  { counts := used.map List.length
    symbols := (used.flatMap fun ps => ps.map fun p => p.2).toArray }

/-- The share of codewords left over, in units of the longest length; negative when there are too
many. -/
def PrefixCode.spare (code : PrefixCode) : Int :=
  code.counts.foldl (fun (left : Int) (count : Nat) => 2 * left - count) 1

/-- Whether at some length there are more codewords than fit. -/
def oversubscribed (left : Int) : List Nat → Bool
  | [] => false
  | count :: counts =>
    let left := 2 * left - count
    left < 0 || oversubscribed left counts

/-- Whether a set of lengths makes a code. Codewords may be left over only when a single length,
one, is used, and never in the code for lengths. -/
def PrefixCode.wellFormed (code : PrefixCode) (mayBeSparse : Bool) : Bool :=
  if code.counts.isEmpty then true
  else !oversubscribed 1 code.counts &&
    (code.spare = 0 || (mayBeSparse && code.counts.length = 1))

/-- Follows the bits through the lengths. `code` is what was read, `first` the first codeword of the
current length, `index` the number of symbols with shorter codewords. -/
def decodeFrom (data : Bytes) (symbols : Array Nat) :
    List Nat → (position code first index : Nat) → Except PackFault (Option Nat × Nat)
  | [], position, _, _, _ => .ok (none, position)
  | count :: counts, position, code, first, index =>
    match bitAt? data position with
    | none => .error .truncated
    | some bit =>
      let code := code + bit
      if code < first + count then .ok (symbols[index + (code - first)]?, position + 1)
      else
        decodeFrom data symbols counts (position + 1) (2 * code) (2 * (first + count))
          (index + count)

/-- The next symbol, or none for a codeword that is not used; a code without codewords spends one
bit. -/
def PrefixCode.decode (code : PrefixCode) (data : Bytes) (position : Nat) :
    Except PackFault (Option Nat × Nat) :=
  if code.counts.isEmpty then (bitsAt data position 1).map fun _ => (none, position + 1)
  else decodeFrom data code.symbols code.counts position 0 0 0

/-! ### Tables of the format -/

def lengthBases : Array (Nat × Nat) :=
  #[(3, 0), (4, 0), (5, 0), (6, 0), (7, 0), (8, 0), (9, 0), (10, 0), (11, 1), (13, 1), (15, 1),
    (17, 1), (19, 2), (23, 2), (27, 2), (31, 2), (35, 3), (43, 3), (51, 3), (59, 3), (67, 4),
    (83, 4), (99, 4), (115, 4), (131, 5), (163, 5), (195, 5), (227, 5), (258, 0)]

def distanceBases : Array (Nat × Nat) :=
  #[(1, 0), (2, 0), (3, 0), (4, 0), (5, 1), (7, 1), (9, 2), (13, 2), (17, 3), (25, 3), (33, 4),
    (49, 4), (65, 5), (97, 5), (129, 6), (193, 6), (257, 7), (385, 7), (513, 8), (769, 8),
    (1025, 9), (1537, 9), (2049, 10), (3073, 10), (4097, 11), (6145, 11), (8193, 12), (12289, 12),
    (16385, 13), (24577, 13)]

/-- The order in which the lengths of the code for lengths are stored. -/
def codeLengthOrder : List Nat :=
  [16, 17, 18, 0, 8, 7, 9, 6, 10, 5, 11, 4, 12, 3, 13, 2, 14, 1, 15]

def fixedLiteralLengths : List Nat :=
  List.replicate 144 8 ++ List.replicate 112 9 ++ List.replicate 24 7 ++ List.replicate 8 8

def fixedDistanceLengths : List Nat := List.replicate 32 5

/-! ### Blocks -/

/-- Repeats `count` bytes from `distance` bytes back. -/
def copyBack (distance : Nat) : Nat → Bytes → Bytes
  | 0, out => out
  | count + 1, out => copyBack distance count (out.push (out.getD (out.size - distance) 0))

/-- The copy that a length symbol stands for, with the distance that follows it. -/
def inflateCopy (distances : PrefixCode) (data : Bytes) (symbol position : Nat) (out : Bytes) :
    Except PackFault (Nat × Bytes) :=
  match lengthBases[symbol - 257]? with
  | none => .error .literalCode
  | some (base, extra) => do
    let more ← bitsAt data position extra
    let position := position + extra
    let length := base + more
    let (symbol, position) ← distances.decode data position
    match symbol.bind fun s => distanceBases[s]? with
    | none => throw .distanceCode
    | some (base, extra) =>
      let more ← bitsAt data position extra
      let distance := base + more
      if out.size < distance then throw .distanceTooFar
      return (position + extra, copyBack distance length out)

/-- The symbols of a block up to its end mark. Every symbol spends a bit, so `fuel` is the number of
bits of the stream. -/
def inflateSymbols (literals distances : PrefixCode) (data : Bytes) :
    Nat → Nat → Bytes → Except PackFault (Nat × Bytes)
  | 0, _, _ => .error .truncated
  | fuel + 1, position, out => do
    let (symbol, position) ← literals.decode data position
    match symbol with
    | none => throw .literalCode
    | some symbol =>
      if symbol < 256 then
        inflateSymbols literals distances data fuel position (out.push (UInt8.ofNat symbol))
      else if symbol = 256 then return (position, out)
      else
        let (position, out) ← inflateCopy distances data symbol position out
        inflateSymbols literals distances data fuel position out

/-- A stored block: lengths after the next byte boundary, then the bytes themselves. -/
def inflateStored (data : Bytes) (position : Nat) (out : Bytes) :
    Except PackFault (Nat × Bytes) := do
  let position := (position + 7) / 8 * 8
  let length ← bitsAt data position 16
  let complement ← bitsAt data (position + 16) 16
  if length + complement ≠ 65535 then throw .storedLengths
  let start := position / 8 + 4
  if data.size < start + length then throw .truncated
  return (8 * (start + length), out ++ data.extract start (start + length))

/-- The lengths of the code for lengths, in stored order. -/
def readCodeLengths (data : Bytes) (position : Nat) : Nat → Except PackFault (List Nat)
  | 0 => .ok []
  | count + 1 => do
    let length ← bitsAt data position 3
    let rest ← readCodeLengths data (position + 3) count
    return length :: rest

/-- Codeword lengths, the last first, until `total` of them are known. -/
def readLengths (code : PrefixCode) (data : Bytes) (total : Nat) :
    Nat → Nat → List Nat → Except PackFault (List Nat × Nat)
  | 0, _, _ => .error .truncated
  | fuel + 1, position, lengths =>
    if total ≤ lengths.length then .ok (lengths.reverse, position)
    else do
      let (symbol, position) ← code.decode data position
      let symbol := symbol.getD 0
      if symbol < 16 then readLengths code data total fuel position (symbol :: lengths)
      else
        let (base, extra) := if symbol = 16 then (3, 2) else if symbol = 17 then (3, 3) else (11, 7)
        let more ← bitsAt data position extra
        let count := base + more
        match symbol, lengths with
        | 16, [] => throw .lengthRepeat
        | _, _ =>
          let value := if symbol = 16 then lengths.headD 0 else 0
          if total < lengths.length + count then throw .lengthRepeat
          readLengths code data total fuel (position + extra)
            (List.replicate count value ++ lengths)

/-- The two codes in front of a dynamic block. -/
def readCodes (data : Bytes) (position : Nat) :
    Except PackFault (PrefixCode × PrefixCode × Nat) := do
  let sizes ← bitsAt data position 14
  let literalCount := sizes % 32 + 257
  let distanceCount := sizes / 32 % 32 + 1
  let lengthCount := sizes / 1024 + 4
  if 286 < literalCount || 30 < distanceCount then throw .tooManySymbols
  let stored ← readCodeLengths data (position + 14) lengthCount
  let pairs := codeLengthOrder.zip stored
  let code := PrefixCode.ofLengths ((List.range 19).map fun i => (pairs.lookup i).getD 0)
  if !code.wellFormed false then throw .codeLengthsSet
  let (lengths, position) ←
    readLengths code data (literalCount + distanceCount) (literalCount + distanceCount + 1)
      (position + 14 + 3 * lengthCount) []
  if lengths.getD 256 0 = 0 then throw .noEndOfBlock
  let literals := PrefixCode.ofLengths (lengths.take literalCount)
  if !literals.wellFormed true then throw .literalSet
  let distances := PrefixCode.ofLengths (lengths.drop literalCount)
  if !distances.wellFormed true then throw .distanceSet
  return (literals, distances, position)

/-- One block: stored, with the fixed codes, or with codes of its own. -/
def inflateBlock (data : Bytes) (kind position : Nat) (out : Bytes) : Except PackFault (Nat × Bytes) :=
  let bits := 8 * data.size + 1
  match kind with
  | 0 => inflateStored data position out
  | 1 =>
    inflateSymbols (.ofLengths fixedLiteralLengths) (.ofLengths fixedDistanceLengths) data bits position
      out
  | 2 => do
    let (literals, distances, position) ← readCodes data position
    inflateSymbols literals distances data bits position out
  | _ => .error .blockType

/-- Blocks up to the last one. Every block spends bits, so `fuel` is the number of bits. -/
def inflateBlocks (data : Bytes) : Nat → Nat → Bytes → Except PackFault (Nat × Bytes)
  | 0, _, _ => .error .truncated
  | fuel + 1, position, out => do
    let head ← bitsAt data position 3
    let (position, out) ← inflateBlock data (head / 2) (position + 3) out
    if head % 2 = 1 then return (position, out) else inflateBlocks data fuel position out

/-- Unpacks a stream. -/
def unpack (data : Bytes) : Except PackFault Bytes := do
  let header ← bitsAt data 0 16
  let method := header % 256
  let flags := header / 256
  if (256 * method + flags) % 31 ≠ 0 then throw .headerCheck
  if method % 16 ≠ 8 then throw .method
  if 7 < method / 16 then throw .windowSize
  if flags / 32 % 2 = 1 then
    let _ ← bitsAt data 16 32
    throw .needsDictionary
  let (position, out) ← inflateBlocks data (8 * data.size + 1) 16 #[]
  let start := (position + 7) / 8
  if data.size < start + 4 then throw .truncated
  let check := (data.extract start (start + 4)).foldl (fun n b => 256 * n + b.toNat) 0
  if check ≠ adler32 out then throw .dataCheck
  return out

end TapeChain.Packing
