import TapeChain.Text.Utf8

/-! Cutting data into pieces to pack: bytes that stand for themselves, and copies of bytes that came
up to 32506 bytes earlier. Earlier occurrences are found through chains of positions whose next
three bytes have the same hash. A copy is put off by one byte as long as the next position starts a
longer one. -/
namespace TapeChain.Packing

inductive Piece where
  | literal (b : UInt8)
  | copy (length distance : Nat)
  deriving DecidableEq

def leastCopy : Nat := 3

def longestCopy : Nat := 258

/-- The farthest start of a copy. -/
def farthest : Nat := 32506

/-- A copy of the least length that starts farther back than this does not pay. -/
def farForLeast : Nat := 4096

/-- How many candidates are tried for a copy, and how many once a good copy is at hand. -/
def candidates : Nat := 4096

def candidatesAfterGood : Nat := 1024

def goodCopy : Nat := 32

/-- The pieces in one block. -/
def blockPieces : Nat := 16383

/-! ### Chains of positions -/

/-- For each hash the latest position with it, and for each position the one before it in its chain.
Zero ends a chain, so that the first byte never starts a copy. -/
structure Occurrences where
  latest : Array Nat
  earlier : Array Nat

def Occurrences.none (size : Nat) : Occurrences :=
  ⟨Array.replicate 32768 0, Array.replicate size 0⟩

/-- The hash of the three bytes from a position on. -/
def hashAt (data : Bytes) (position : Nat) : Nat :=
  ((data.getD position 0).toNat * 1024 ^^^ (data.getD (position + 1) 0).toNat * 32 ^^^
    (data.getD (position + 2) 0).toNat) % 32768

/-- Enters a position; gives the latest one with the same hash. The last two positions are not
entered. -/
def Occurrences.enter (data : Bytes) (position : Nat) : Occurrences → Nat × Occurrences
  | ⟨latest, earlier⟩ =>
    if position + leastCopy ≤ data.size then
      let hash := hashAt data position
      let head := latest.getD hash 0
      (head, ⟨latest.setIfInBounds hash position, earlier.setIfInBounds position head⟩)
    else (0, ⟨latest, earlier⟩)

/-- Enters `count` positions. -/
def Occurrences.enterAll (data : Bytes) : Nat → Nat → Occurrences → Occurrences
  | 0, _, o => o
  | count + 1, position, o => enterAll data count (position + 1) (o.enter data position).2

/-! ### The longest copy -/

/-- How many bytes agree from two positions on, at most the given number. -/
def agreement (data : Bytes) (p q : Nat) : Nat → Nat
  | 0 => 0
  | count + 1 =>
    if data.getD p 0 = data.getD q 0 then agreement data (p + 1) (q + 1) count + 1 else 0

/-- A possible copy. -/
structure Candidate where
  length : Nat
  start : Nat

/-- Goes down a chain, over at most `count` candidates that start after `bound`, for a copy longer
than `best`. No copy is longer than `reach`. -/
def longestFrom (data : Bytes) (earlier : Array Nat) (position reach bound : Nat) :
    Nat → Nat → Candidate → Candidate
  | 0, _, best => best
  | count + 1, start, best =>
    let length :=
      if data.getD (start + best.length) 0 = data.getD (position + best.length) 0 then
        agreement data start position reach
      else 0
    let best := if best.length < length then ⟨length, start⟩ else best
    if reach ≤ best.length then best
    else
      let next := earlier.getD start 0
      if bound < next then longestFrom data earlier position reach bound count next best else best

/-! ### Scanning -/

/-- The pieces of one block, the last first, and the bytes they stand for. The bytes are at hand
while they are in the window. -/
structure Block where
  pieces : Array Piece
  start : Nat
  stop : Nat
  atHand : Bool

/-- The window of 65536 bytes starts at `window`. `previous` is the copy found at the byte before
`position`, and `putOff` says whether that byte is still to be written. -/
structure Scan where
  position : Nat
  window : Nat
  seen : Occurrences
  previous : Candidate
  putOff : Bool
  pieces : Array Piece
  blockStart : Nat
  blocks : Array Block

/-- No copy. -/
def Candidate.none : Candidate := ⟨leastCopy - 1, 0⟩

namespace Scan

def start (data : Bytes) : Scan :=
  ⟨0, 0, .none data.size, .none, false, #[], 0, #[]⟩

/-- The window moves on by half its size when fewer than 262 of its bytes lie ahead. -/
def windowAt (data : Bytes) (window position : Nat) : Nat :=
  if min data.size (window + 65536) - position < 262 ∧ 65274 ≤ position - window then
    window + 32768
  else window

/-- The copy to use at a position, given the latest occurrence and the copy found just before. -/
def search (data : Bytes) (earlier : Array Nat) (window position head : Nat)
    (previous : Candidate) : Candidate :=
  if window < head ∧ previous.length < longestCopy ∧ position - head ≤ farthest then
    let count := if goodCopy ≤ previous.length then candidatesAfterGood else candidates
    let found := longestFrom data earlier position (min longestCopy (data.size - position))
      (max window (position - farthest)) count head previous
    if found.length = leastCopy ∧ farForLeast < position - found.start then .none else found
  else .none

/-- Ends a block when it is full. -/
def closeIfFull (s : Scan) : Scan :=
  if s.pieces.size = blockPieces then
    match s with
    | ⟨position, window, seen, previous, putOff, pieces, blockStart, blocks⟩ =>
      ⟨position, window, seen, previous, putOff, #[], position,
        blocks.push ⟨pieces, blockStart, position, window ≤ blockStart⟩⟩
  else s

/-- One position. -/
def step (data : Bytes) : Scan → Scan
  | ⟨position, window, seen, previous, putOff, pieces, blockStart, blocks⟩ =>
    let window := windowAt data window position
    let (head, seen) := seen.enter data position
    let found := search data seen.earlier window position head previous
    if leastCopy ≤ previous.length ∧ found.length ≤ previous.length then
      let piece := .copy previous.length (position - 1 - previous.start)
      let seen := seen.enterAll data (previous.length - 2) (position + 1)
      closeIfFull ⟨position + previous.length - 1, window, seen, .none, false, pieces.push piece,
        blockStart, blocks⟩
    else if putOff then
      let piece := .literal (data.getD (position - 1) 0)
      let s := closeIfFull ⟨position, window, seen, found, true, pieces.push piece, blockStart,
        blocks⟩
      { s with position := position + 1 }
    else ⟨position + 1, window, seen, found, true, pieces, blockStart, blocks⟩

/-- Every step moves on, so `fuel` is the number of bytes. -/
def run (data : Bytes) : Nat → Scan → Scan
  | 0, s => s
  | fuel + 1, s => if data.size ≤ s.position then s else run data fuel (s.step data)

/-- The blocks, the last one possibly without pieces. -/
def finish (data : Bytes) (s : Scan) : Array Block :=
  let pieces :=
    if s.putOff then s.pieces.push (.literal (data.getD (s.position - 1) 0)) else s.pieces
  s.blocks.push ⟨pieces, s.blockStart, s.position, windowAt data s.window s.position ≤ s.blockStart⟩

end Scan

/-- The blocks that data is packed in. -/
def blocksOf (data : Bytes) : Array Block := ((Scan.start data).run data data.size).finish data

end TapeChain.Packing
