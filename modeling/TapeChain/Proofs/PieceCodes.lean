import TapeChain.Proofs.CanonicalCode
import TapeChain.Proofs.Copies

/-! The pieces of a block as symbols. A literal is the symbol of its byte; a copy is a length and a
distance, each a symbol for a range of values with bits that say which value of the range is meant.
The tables of ranges leave no gap, so each piece is read back as it was written. -/
namespace TapeChain.Packing

/-! ### Ranges -/

theorem entryFor_lt (bases : Array (Nat × Nat)) (value : Nat) {count : Nat} (positive : 0 < count) :
    (entryFor bases value count).1 < count := by
  induction count with
  | zero => cases positive
  | succ count ih =>
      rw [entryFor]
      split
      · exact Nat.lt_succ_self count
      · cases count with
        | zero => exact Nat.one_pos
        | succ count => exact Nat.lt_succ_of_lt (ih (Nat.succ_pos count))

/-- The entry is the last one whose base is not above the value. -/
theorem entryFor_spec {bases : Array (Nat × Nat)} {value : Nat}
    (first : (bases.getD 0 (0, 0)).1 ≤ value) {count : Nat} (positive : 0 < count) :
    (bases.getD (entryFor bases value count).1 (0, 0)).1 + (entryFor bases value count).2 = value ∧
      ((entryFor bases value count).1 + 1 < count →
        value < (bases.getD ((entryFor bases value count).1 + 1) (0, 0)).1) := by
  induction count with
  | zero => cases positive
  | succ count ih =>
      simp only [entryFor]
      split
      next below => exact ⟨Nat.add_sub_cancel' below, fun more => absurd more (Nat.lt_irrefl _)⟩
      next above =>
        cases count with
        | zero => exact absurd first above
        | succ count =>
            obtain ⟨sum, next⟩ := ih (Nat.succ_pos count)
            refine ⟨sum, fun more => ?_⟩
            obtain less | same := Nat.lt_or_eq_of_le (Nat.le_of_lt_succ more)
            · exact next less
            · rw [same]
              exact Nat.lt_of_not_le above

/-- Each range reaches up to the next base, and the last one up to `limit`. -/
structure Gapless (bases : Array (Nat × Nat)) (limit : Nat) : Prop where
  nonempty : 0 < bases.size
  inner : ∀ i < bases.size - 1, (bases.getD (i + 1) (0, 0)).1 ≤
    (bases.getD i (0, 0)).1 + Nat.pow 2 (bases.getD i (0, 0)).2
  last : limit < (bases.getD (bases.size - 1) (0, 0)).1 +
    Nat.pow 2 (bases.getD (bases.size - 1) (0, 0)).2

theorem gapless_lengthBases : Gapless lengthBases longestCopy := ⟨by decide, by decide, by decide⟩

theorem gapless_distanceBases : Gapless distanceBases farthest := ⟨by decide, by decide, by decide⟩

theorem Gapless.entry {bases : Array (Nat × Nat)} {limit value : Nat} (gapless : Gapless bases limit)
    (least : (bases.getD 0 (0, 0)).1 ≤ value) (most : value ≤ limit) :
    ∃ base width, bases[(entryFor bases value bases.size).1]? = some (base, width) ∧
      (bases.getD (entryFor bases value bases.size).1 (0, 0)).2 = width ∧
        base + (entryFor bases value bases.size).2 = value ∧
          (entryFor bases value bases.size).2 < Nat.pow 2 width := by
  have inside := entryFor_lt bases value gapless.nonempty
  obtain ⟨sum, next⟩ := entryFor_spec least gapless.nonempty
  generalize (entryFor bases value bases.size) = entry at inside sum next ⊢
  obtain ⟨index, extra⟩ := entry
  have found : bases[index]? = some (bases.getD index (0, 0)) := by
    rw [Array.getElem?_eq_getElem inside, Array.getD_eq_getD_getElem?, Array.getElem?_eq_getElem inside,
      Option.getD_some]
  refine ⟨(bases.getD index (0, 0)).1, (bases.getD index (0, 0)).2, found, rfl, sum, ?_⟩
  dsimp only at inside sum next ⊢
  by_cases more : index + 1 < bases.size
  · have reach := gapless.inner index (by omega)
    have bound := next more
    omega
  · have final : index = bases.size - 1 := by omega
    have reach := gapless.last
    rw [← final] at reach
    omega

/-! ### Bits of pieces -/

/-- The bits of a symbol and of the place in its range. -/
def rangeBits (lengths : List Nat) (symbol extra width : Nat) : List Nat :=
  codeword lengths symbol ++ lowBits extra width

/-- The bits of a piece. -/
def pieceBits (literals distances : List Nat) : Piece → List Nat
  | .literal b => codeword literals b.toNat
  | .copy length distance =>
    rangeBits literals (257 + (lengthEntry length).1) (lengthEntry length).2
        (literalExtra (257 + (lengthEntry length).1)) ++
      rangeBits distances (distanceEntry distance).1 (distanceEntry distance).2
        (distanceExtra (distanceEntry distance).1)

/-- The bits of the pieces of a block and of its end mark. -/
def piecesBits (literals distances : List Nat) (pieces : List Piece) : List Nat :=
  pieces.flatMap (pieceBits literals distances) ++ codeword literals endMark

theorem piecesBits_cons (literals distances : List Nat) (piece : Piece) (pieces : List Piece) :
    piecesBits literals distances (piece :: pieces) =
      pieceBits literals distances piece ++ piecesBits literals distances pieces := by
  rw [piecesBits, List.flatMap_cons, List.append_assoc]
  rfl

/-- The symbols of a piece have codewords. -/
def Piece.Coded (literals distances : List Nat) : Piece → Prop
  | .literal b => 0 < literals.getD b.toNat 0
  | .copy length distance => 0 < literals.getD (257 + (lengthEntry length).1) 0 ∧
    0 < distances.getD (distanceEntry distance).1 0

/-- A piece of the sizes that a copy may have. -/
def Piece.Allowed : Piece → Prop
  | .literal _ => True
  | .copy length distance => leastCopy ≤ length ∧ length ≤ longestCopy ∧ 1 ≤ distance ∧
    distance ≤ farthest

theorem Stands.allowed {data : Bytes} {start stop : Nat} {pieces : List Piece}
    (stands : Stands data start pieces stop) : ∀ piece ∈ pieces, piece.Allowed := by
  induction stands with
  | nil _ => intro piece member; cases member
  | literal _ _ ih =>
      intro piece member
      cases member with
      | head => trivial
      | tail _ member => exact ih piece member
  | copy repeats _ ih =>
      intro piece member
      cases member with
      | head => exact ⟨repeats.least, repeats.most, Nat.sub_pos_of_lt repeats.earlier, repeats.near⟩
      | tail _ member => exact ih piece member

/-- What is known of the entries of a copy. -/
theorem lengthEntry_spec {length : Nat} (least : leastCopy ≤ length) (most : length ≤ longestCopy) :
    ∃ base width, lengthBases[(lengthEntry length).1]? = some (base, width) ∧
      literalExtra (257 + (lengthEntry length).1) = width ∧ base + (lengthEntry length).2 = length ∧
        (lengthEntry length).2 < Nat.pow 2 width := by
  obtain ⟨base, width, found, extra, sum, small⟩ := gapless_lengthBases.entry least most
  refine ⟨base, width, found, ?_, sum, small⟩
  rw [literalExtra, if_neg (Nat.not_lt.mpr (Nat.le_add_right 257 _)), Nat.add_sub_cancel_left]
  exact extra

theorem distanceEntry_spec {distance : Nat} (least : 1 ≤ distance) (most : distance ≤ farthest) :
    ∃ base width, distanceBases[(distanceEntry distance).1]? = some (base, width) ∧
      distanceExtra (distanceEntry distance).1 = width ∧
        base + (distanceEntry distance).2 = distance ∧
          (distanceEntry distance).2 < Nat.pow 2 width :=
  gapless_distanceBases.entry least most

theorem width_le_of_getElem? {bases : Array (Nat × Nat)} {index base width most : Nat}
    (short : ∀ entry ∈ bases.toList, entry.2 ≤ most) (found : bases[index]? = some (base, width)) :
    width ≤ most := by
  rw [← Array.getElem?_toList] at found
  exact short _ (List.mem_of_getElem? found)

section Pieces
variable {longest longest' : Nat} {literals distances : List Nat}

theorem emits_range {lengths : List Nat} (complete : Complete longest lengths)
    (allowed : longest ≤ longestCode) {symbol extra width : Nat} (used : 0 < lengths.getD symbol 0)
    (short : width ≤ 16) (small : extra < Nat.pow 2 width) :
    BitWriter.Emits (fun w => (w.put ((codewords lengths).getD symbol (0, 0)).1
      ((codewords lengths).getD symbol (0, 0)).2).put extra width)
      (rangeBits lengths symbol extra width) := by
  have both := (complete.emits allowed used).comp (BitWriter.emits_put short small)
  exact both

theorem emits_writePiece (complete : Complete longest literals)
    (complete' : Complete longest' distances) (allowed : longest ≤ longestCode)
    (allowed' : longest' ≤ longestCode) {piece : Piece} (coded : piece.Coded literals distances)
    (valid : piece.Allowed) :
    BitWriter.Emits (fun w => writePiece (codewords literals) (codewords distances) w piece)
      (pieceBits literals distances piece) := by
  cases piece with
  | literal b => exact complete.emits allowed coded
  | copy length distance =>
      obtain ⟨least, most, least', most'⟩ := valid
      obtain ⟨base, width, found, extra, _, small⟩ := lengthEntry_spec least most
      obtain ⟨base', width', found', extra', _, small'⟩ := distanceEntry_spec least' most'
      have short : width ≤ 16 := width_le_of_getElem? (by decide) found
      have short' : width' ≤ 16 := width_le_of_getElem? (by decide) found'
      rw [← extra] at short small
      rw [← extra'] at short' small'
      exact (emits_range complete allowed coded.1 short small).comp
        (emits_range complete' allowed' coded.2 short' small')

theorem emits_writePieces (complete : Complete longest literals)
    (complete' : Complete longest' distances) (allowed : longest ≤ longestCode)
    (allowed' : longest' ≤ longestCode) {pieces : Array Piece}
    (coded : ∀ piece ∈ pieces.toList, piece.Coded literals distances)
    (valid : ∀ piece ∈ pieces.toList, piece.Allowed) (ends : 0 < literals.getD endMark 0) :
    BitWriter.Emits (writePieces (codewords literals) (codewords distances) pieces)
      (piecesBits literals distances pieces.toList) := by
  have body := BitWriter.Emits.foldl fun piece member =>
    emits_writePiece complete complete' allowed allowed' (coded piece member) (valid piece member)
  have whole := body.comp (complete.emits allowed ends)
  simp only [Array.foldl_toList] at whole
  exact whole

end Pieces

/-! ### Reading pieces -/

section Reading
variable {literals distances : PrefixCode} {packed out : Bytes} {fuel position position' symbol : Nat}

theorem inflateSymbols_literal
    (decoded : literals.decode packed position = .ok (some symbol, position')) (small : symbol < 256) :
    inflateSymbols literals distances packed (fuel + 1) position out =
      inflateSymbols literals distances packed fuel position' (out.push (UInt8.ofNat symbol)) := by
  simp only [inflateSymbols, decoded, bind, Except.bind, if_pos small]

theorem inflateSymbols_end
    (decoded : literals.decode packed position = .ok (some endMark, position')) :
    inflateSymbols literals distances packed (fuel + 1) position out = .ok (position', out) := by
  simp only [inflateSymbols, decoded, bind, Except.bind, endMark, Nat.lt_irrefl, if_false, if_true]
  rfl

theorem inflateCopy_eq {index base width extra position'' symbol' base' width' extra' : Nat}
    (found : lengthBases[index]? = some (base, width))
    (more : bitsAt packed position width = .ok extra)
    (decoded' : distances.decode packed (position + width) = .ok (some symbol', position''))
    (found' : distanceBases[symbol']? = some (base', width'))
    (more' : bitsAt packed position'' width' = .ok extra') (near : base' + extra' ≤ out.size) :
    inflateCopy distances packed (257 + index) position out =
      .ok (position'' + width', copyBack (base' + extra') (base + extra) out) := by
  unfold inflateCopy
  rw [Nat.add_sub_cancel_left, found]
  simp only [bind, Except.bind, more, decoded', Option.bind_some, found', more',
    if_neg (Nat.not_lt.mpr near)]
  rfl

theorem inflateSymbols_copy {index position'' : Nat} {out' : Bytes}
    (decoded : literals.decode packed position = .ok (some (257 + index), position'))
    (copied : inflateCopy distances packed (257 + index) position' out = .ok (position'', out')) :
    inflateSymbols literals distances packed (fuel + 1) position out =
      inflateSymbols literals distances packed fuel position'' out' := by
  have large : ¬257 + index < 256 := by omega
  have other : ¬257 + index = 256 := by omega
  simp only [inflateSymbols, decoded, bind, Except.bind, if_neg large, if_neg other, copied]

end Reading

section Run
variable {longest longest' : Nat} {literals distances : List Nat}
  (complete : Complete longest literals) (complete' : Complete longest' distances)
  {data packed : Bytes} {start position : Nat}
include complete

theorem inflateSymbols_nextByte (inside : start < data.size)
    (used : 0 < literals.getD (data.getD start 0).toNat 0)
    (ahead : Ahead packed position (codeword literals (data.getD start 0).toNat)) (fuel : Nat) :
    inflateSymbols (.ofLengths literals) (.ofLengths distances) packed (fuel + 1) position
        (data.extract 0 start) =
      inflateSymbols (.ofLengths literals) (.ofLengths distances) packed fuel
        (position + (codeword literals (data.getD start 0).toNat).length)
          (data.extract 0 (start + 1)) := by
  rw [inflateSymbols_literal (complete.decode used ahead) (data.getD start 0).toNat_lt,
    UInt8.ofNat_toNat, push_extract inside]

include complete'

theorem inflateSymbols_nextCopy {candidate : Candidate} (repeats : Repeats data start candidate)
    (coded : Piece.Coded literals distances (.copy candidate.length (start - candidate.start)))
    (ahead : Ahead packed position
      (pieceBits literals distances (.copy candidate.length (start - candidate.start))))
    (fuel : Nat) :
    inflateSymbols (.ofLengths literals) (.ofLengths distances) packed (fuel + 1) position
        (data.extract 0 start) =
      inflateSymbols (.ofLengths literals) (.ofLengths distances) packed fuel
        (position + (pieceBits literals distances
          (.copy candidate.length (start - candidate.start))).length)
          (data.extract 0 (start + candidate.length)) := by
  obtain ⟨used, used'⟩ := coded
  have distance : 0 < start - candidate.start := Nat.sub_pos_of_lt repeats.earlier
  obtain ⟨base, width, found, extra, sum, small⟩ := lengthEntry_spec repeats.least repeats.most
  obtain ⟨base', width', found', extra', sum', small'⟩ := distanceEntry_spec distance repeats.near
  rw [pieceBits, rangeBits, rangeBits, extra, extra'] at ahead ⊢
  have length := ahead.left.left
  have more := ahead.left.right
  have near := ahead.right.left
  have more' := ahead.right.right
  rw [List.length_append, length_lowBits, ← Nat.add_assoc] at near more'
  have reach : base' + (distanceEntry (start - candidate.start)).2 ≤ (data.extract 0 start).size := by
    have inside := repeats.inside
    rw [sum', Array.size_extract]
    omega
  have same : ∀ i < candidate.length,
      data.getD (start - (start - candidate.start) + i) 0 = data.getD (start + i) 0 := by
    rw [Nat.sub_sub_self (Nat.le_of_lt repeats.earlier)]
    exact repeats.same
  rw [inflateSymbols_copy (complete.decode used length) (inflateCopy_eq found (more.bitsAt small)
    (complete'.decode used' near) found' (more'.bitsAt small') reach), sum, sum',
    copyBack_extract distance candidate.length (Nat.sub_le _ _) repeats.inside same]
  simp only [List.length_append, length_lowBits, ← Nat.add_assoc]

/-- The bits of the pieces that stand for some bytes, and of the end mark, are read as those bytes. -/
theorem inflateSymbols_pieces (ends : 0 < literals.getD endMark 0) {stop : Nat} {pieces : List Piece}
    (stands : Stands data start pieces stop)
    (coded : ∀ piece ∈ pieces, piece.Coded literals distances) {fuel : Nat}
    (enough : pieces.length < fuel)
    (ahead : Ahead packed position (piecesBits literals distances pieces)) :
    inflateSymbols (.ofLengths literals) (.ofLengths distances) packed fuel position
      (data.extract 0 start) =
        .ok (position + (piecesBits literals distances pieces).length, data.extract 0 stop) := by
  induction stands generalizing fuel position with
  | nil _ =>
      obtain ⟨fuel, rfl⟩ : ∃ more, fuel = more + 1 := ⟨fuel - 1, by omega⟩
      exact inflateSymbols_end (complete.decode ends ahead)
  | literal inside _ ih =>
      obtain ⟨fuel, rfl⟩ : ∃ more, fuel = more + 1 := ⟨fuel - 1, by omega⟩
      obtain ⟨first, others⟩ := List.forall_mem_cons.mp coded
      rw [piecesBits_cons] at ahead ⊢
      have rest := ih others (Nat.lt_of_succ_lt_succ enough) ahead.right
      rw [Nat.add_assoc, ← List.length_append] at rest
      exact (inflateSymbols_nextByte complete inside first ahead.left fuel).trans rest
  | copy repeats _ ih =>
      obtain ⟨fuel, rfl⟩ : ∃ more, fuel = more + 1 := ⟨fuel - 1, by omega⟩
      obtain ⟨first, others⟩ := List.forall_mem_cons.mp coded
      rw [piecesBits_cons] at ahead ⊢
      have rest := ih others (Nat.lt_of_succ_lt_succ enough) ahead.right
      rw [Nat.add_assoc, ← List.length_append] at rest
      exact (inflateSymbols_nextCopy complete complete' repeats first ahead.left fuel).trans rest

end Run

end TapeChain.Packing
