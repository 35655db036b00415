import TapeChain.Packing.Huffman
import TapeChain.Packing.Pieces

/-! Packing into a DEFLATE stream. Each block is written in the shortest of three forms: stored, with
the fixed codes, or with codes of its own. -/
namespace TapeChain.Packing

/-! ### Writing bits -/

/-- Bytes, and up to seven bits that do not make a byte yet. -/
structure BitWriter where
  bytes : Bytes
  pending : Nat
  width : Nat

namespace BitWriter

/-- Moves whole bytes out of the pending bits. -/
def drain : Nat → BitWriter → BitWriter
  | 0, w => w
  | fuel + 1, w =>
    if w.width < 8 then w
    else drain fuel ⟨w.bytes.push (UInt8.ofNat (w.pending % 256)), w.pending / 256, w.width - 8⟩

/-- Appends `width` bits, at most 16, the lowest first. -/
def put (w : BitWriter) (value width : Nat) : BitWriter :=
  drain 3 { w with pending := w.pending + value * Nat.pow 2 w.width, width := w.width + width }

/-- Fills the last byte with zeros. -/
def align (w : BitWriter) : BitWriter :=
  if w.width = 0 then w else ⟨w.bytes.push (UInt8.ofNat w.pending), 0, 0⟩

end BitWriter

/-! ### Symbols of pieces -/

/-- The last entry whose base is at most `value`: its index, and what is added to the base. -/
def entryFor (bases : Array (Nat × Nat)) (value : Nat) : Nat → Nat × Nat
  | 0 => (0, 0)
  | k + 1 =>
    let base := (bases.getD k (0, 0)).1
    if base ≤ value then (k, value - base) else entryFor bases value k

/-- The symbol of a copy's length, less 257, and its extra value. -/
def lengthEntry (length : Nat) : Nat × Nat := entryFor lengthBases length lengthBases.size

def distanceEntry (distance : Nat) : Nat × Nat :=
  entryFor distanceBases distance distanceBases.size

/-- The end mark of a block. -/
def endMark : Nat := 256

/-- How often each literal or length symbol and each distance symbol occurs in a block. -/
structure Weights where
  literals : Array Nat
  distances : Array Nat

def Weights.tally : Weights → Piece → Weights
  | ⟨literals, distances⟩, .literal b => ⟨literals.modify b.toNat (· + 1), distances⟩
  | ⟨literals, distances⟩, .copy length distance =>
    ⟨literals.modify (257 + (lengthEntry length).1) (· + 1),
      distances.modify (distanceEntry distance).1 (· + 1)⟩

def weightsOf (pieces : Array Piece) : Weights :=
  pieces.foldl Weights.tally ⟨(Array.replicate 286 0).setIfInBounds endMark 1, Array.replicate 30 0⟩

/-- The extra bits that follow a literal or length symbol. -/
def literalExtra (symbol : Nat) : Nat :=
  if symbol < 257 then 0 else (lengthBases.getD (symbol - 257) (0, 0)).2

def distanceExtra (symbol : Nat) : Nat := (distanceBases.getD symbol (0, 0)).2

/-- The bits that symbols of the given weights take. -/
def bitsFor (weights lengths : Array Nat) (extra : Nat → Nat) : Nat :=
  weights.toList.zipIdx.foldl (fun n p => n + p.1 * (lengths.getD p.2 0 + extra p.2)) 0

/-! ### Codeword lengths as symbols -/

/-- A symbol of the code for lengths, with its extra value and that value's width. -/
structure LengthSymbol where
  symbol : Nat
  extra : Nat
  width : Nat

/-- One run of `count` equal lengths. The first of a run of used lengths is written out unless it
repeats the length before the run. -/
def runSymbols (previous : Option Nat) (length count : Nat) : List LengthSymbol :=
  if length = 0 then
    if count < 3 then List.replicate count ⟨0, 0, 0⟩
    else if count ≤ 10 then [⟨17, count - 3, 3⟩]
    else [⟨18, count - 11, 7⟩]
  else if previous = some length then
    if count < 3 then List.replicate count ⟨length, 0, 0⟩ else [⟨16, count - 3, 2⟩]
  else
    if count < 4 then List.replicate count ⟨length, 0, 0⟩
    else [⟨length, 0, 0⟩, ⟨16, count - 4, 2⟩]

/-- The longest run that one group of symbols stands for. -/
def runLimit (previous : Option Nat) (length : Nat) : Nat :=
  if length = 0 then 138 else if previous = some length then 6 else 7

/-- The symbols for a list of lengths. `count` of the current length have been seen. -/
def lengthSymbolsFrom (previous : Option Nat) (length count : Nat) : List Nat → List LengthSymbol
  | [] => runSymbols previous length count
  | next :: rest =>
    if next = length ∧ count < runLimit previous length then
      lengthSymbolsFrom previous length (count + 1) rest
    else runSymbols previous length count ++ lengthSymbolsFrom (some length) next 1 rest

def lengthSymbols : List Nat → List LengthSymbol
  | [] => []
  | length :: rest => lengthSymbolsFrom none length 1 rest

/-- Lengths up to the last one in use. -/
def trimZeros (lengths : Array Nat) : List Nat :=
  (lengths.toList.reverse.dropWhile (· = 0)).reverse

/-! ### Blocks -/

/-- The codes of a block and how they are written in front of it. -/
structure BlockCodes where
  literals : List Nat
  distances : List Nat
  symbols : List LengthSymbol
  symbolLengths : Array Nat
  stored : List Nat

/-- How often each symbol of the code for lengths occurs. -/
def symbolCounts (symbols : List LengthSymbol) : Array Nat :=
  symbols.foldl (fun (c : Array Nat) s => c.modify s.symbol (· + 1)) (Array.replicate 19 0)

/-- The lengths of the code for lengths in stored order, up to the last one in use; at least four. -/
def storedLengths (symbolLengths : Array Nat) : List Nat :=
  let ordered := codeLengthOrder.map fun s => symbolLengths.getD s 0
  let stored := (ordered.reverse.dropWhile (· = 0)).reverse
  if stored.length < 4 then ordered.take 4 else stored

def BlockCodes.ofLengths (literals distances : List Nat) : BlockCodes :=
  let symbols := lengthSymbols literals ++ lengthSymbols distances
  let symbolLengths := codeLengths 7 (symbolCounts symbols).toList
  { literals, distances, symbols, symbolLengths, stored := storedLengths symbolLengths }

def blockCodes (weights : Weights) : BlockCodes :=
  .ofLengths (trimZeros (codeLengths 15 weights.literals.toList))
    (trimZeros (codeLengths 15 weights.distances.toList))

/-- The bits in front of a block with codes of its own. -/
def BlockCodes.size (codes : BlockCodes) : Nat :=
  14 + 3 * codes.stored.length +
    codes.symbols.foldl (fun n s => n + codes.symbolLengths.getD s.symbol 0 + s.width) 0

def BlockCodes.write (codes : BlockCodes) (w : BitWriter) : BitWriter :=
  let w := w.put (codes.literals.length - 257) 5
  let w := w.put (codes.distances.length - 1) 5
  let w := w.put (codes.stored.length - 4) 4
  let w := codes.stored.foldl (fun (w : BitWriter) n => w.put n 3) w
  let words := codewords codes.symbolLengths.toList
  codes.symbols.foldl (fun w s =>
    let word := words.getD s.symbol (0, 0)
    (w.put word.1 word.2).put s.extra s.width) w

/-- Writes one piece with the codewords of literals and of distances. -/
def writePiece (literals distances : Array (Nat × Nat)) (w : BitWriter) : Piece → BitWriter
  | .literal b =>
    let word := literals.getD b.toNat (0, 0)
    w.put word.1 word.2
  | .copy length distance =>
    let (entry, extra) := lengthEntry length
    let word := literals.getD (257 + entry) (0, 0)
    let w := (w.put word.1 word.2).put extra (literalExtra (257 + entry))
    let (entry, extra) := distanceEntry distance
    let word := distances.getD entry (0, 0)
    (w.put word.1 word.2).put extra (distanceExtra entry)

def writePieces (literals distances : Array (Nat × Nat)) (pieces : Array Piece) (w : BitWriter) :
    BitWriter :=
  let w := pieces.foldl (writePiece literals distances) w
  let word := literals.getD endMark (0, 0)
  w.put word.1 word.2

/-- A stored block: after its three bits the lengths and the bytes start at a byte boundary. -/
def writeStored (bytes : Bytes) (last : Bool) (w : BitWriter) : BitWriter :=
  let w := (w.put (if last then 1 else 0) 3).align
  let w := (w.put bytes.size 16).put (65535 - bytes.size) 16
  { w with bytes := w.bytes ++ bytes }

def writeBlock (data : Bytes) (block : Block) (last : Bool) (w : BitWriter) : BitWriter :=
  let weights := weightsOf block.pieces
  let codes := blockCodes weights
  let ownBits := codes.size + bitsFor weights.literals codes.literals.toArray literalExtra +
    bitsFor weights.distances codes.distances.toArray distanceExtra
  let fixedBits := bitsFor weights.literals fixedLiteralLengths.toArray literalExtra +
    bitsFor weights.distances fixedDistanceLengths.toArray distanceExtra
  let ownBytes := (ownBits + 10) / 8
  let fixedBytes := (fixedBits + 10) / 8
  let lastBit := if last then 1 else 0
  if block.stop - block.start + 4 ≤ min ownBytes fixedBytes ∧ block.atHand then
    writeStored (data.extract block.start block.stop) last w
  else if fixedBytes ≤ ownBytes then
    writePieces (codewords fixedLiteralLengths) (codewords fixedDistanceLengths) block.pieces
      (w.put (2 + lastBit) 3)
  else
    writePieces (codewords codes.literals) (codewords codes.distances) block.pieces
      (codes.write (w.put (4 + lastBit) 3))

def writeBlocks (data : Bytes) : List Block → BitWriter → BitWriter
  | [], w => w
  | [block], w => writeBlock data block true w
  | block :: rest, w => writeBlocks data rest (writeBlock data block false w)

/-! ### Streams -/

/-- The header of a stream packed with the greatest effort. -/
def header : Bytes := #[0x78, 0xda]

/-- The checksum, the highest byte first. -/
def checksum (data : Bytes) : Bytes :=
  let sum := adler32 data
  #[UInt8.ofNat (sum / 16777216), UInt8.ofNat (sum / 65536 % 256), UInt8.ofNat (sum / 256 % 256),
    UInt8.ofNat (sum % 256)]

/-- Packs data with the greatest effort. -/
def pack (data : Bytes) : Bytes :=
  header ++ (writeBlocks data (blocksOf data).toList ⟨#[], 0, 0⟩).align.bytes ++ checksum data

end TapeChain.Packing
