import TapeChain.Proofs.BlockCodes

/-! Blocks of a stream. Whichever of the three forms a block is written in, its bits are read as the
bytes that its pieces stand for. A block is stored only where that takes the least room, and so never
has more bytes than a stored block can have. -/
namespace TapeChain.Packing

/-! ### The fixed codes -/

theorem complete_fixedLiterals : Complete 9 fixedLiteralLengths where
  short length member := by
    simp only [fixedLiteralLengths, List.mem_append, List.mem_replicate] at member
    omega
  full := by decide +kernel

theorem complete_fixedDistances : Complete 5 fixedDistanceLengths where
  short length member := Nat.le_of_eq (List.eq_of_mem_replicate member)
  full := by decide +kernel

theorem fixedLiterals_pos {symbol : Nat} (inside : symbol < 288) :
    0 < fixedLiteralLengths.getD symbol 0 := by
  have length : fixedLiteralLengths.length = 288 := by decide +kernel
  have found : fixedLiteralLengths.getD symbol 0 ∈ fixedLiteralLengths := by
    rw [List.getD_eq_getElem?_getD, List.getElem?_eq_getElem (length.symm ▸ inside), Option.getD_some]
    exact List.getElem_mem _
  generalize fixedLiteralLengths.getD symbol 0 = n at found ⊢
  simp only [fixedLiteralLengths, List.mem_append, List.mem_replicate] at found
  omega

theorem fixedDistances_pos {symbol : Nat} (inside : symbol < 32) :
    0 < fixedDistanceLengths.getD symbol 0 := by
  rw [fixedDistanceLengths, List.getD_eq_getElem?_getD, List.getElem?_replicate, if_pos inside]
  decide

theorem coded_fixed (piece : Piece) : piece.Coded fixedLiteralLengths fixedDistanceLengths := by
  cases piece with
  | literal b => exact fixedLiterals_pos (Nat.lt_trans b.toNat_lt (by decide))
  | copy length distance =>
      exact ⟨fixedLiterals_pos (Nat.lt_of_lt_of_le (Weights.lengthEntry_lt length) (by decide)),
        fixedDistances_pos (Nat.lt_of_lt_of_le (Weights.distanceEntry_lt distance) (by decide))⟩

/-! ### Bodies of blocks -/

/-- Wherever the bits come to stand in a stream, at the same bit of a byte as behind `written` bits,
they are read as a block of the given kind that takes `before` to `after`. -/
def Inflates (kind written : Nat) (bits : List Nat) (before after : Bytes) : Prop :=
  ∀ (packed : Bytes) (position : Nat), position % 8 = written % 8 → position ≤ 8 * packed.size →
    Ahead packed position bits →
      inflateBlock packed kind position before = .ok (position + bits.length, after)

/-- The bits of a stored block behind its head and the `written` bits before. -/
def storedBits (written : Nat) (bytes : Bytes) : List Nat :=
  BitWriter.padding written ++ (lowBits bytes.size 16 ++ lowBits (65535 - bytes.size) 16) ++
    bitsOf bytes

theorem writeStored_spec {bytes : Bytes} (short : bytes.size ≤ 65535) (last : Bool) {w : BitWriter}
    (settled : w.Settled) :
    (writeStored bytes last w).Settled ∧ (writeStored bytes last w).bits =
      w.bits ++ (lowBits (if last then 1 else 0) 3 ++ storedBits (w.bits.length + 3) bytes) := by
  have bit : (if last then 1 else 0) < Nat.pow 2 3 := by cases last <;> decide
  obtain ⟨head, headBits⟩ := BitWriter.emits_put (by decide) bit w settled
  have complement : 65535 - bytes.size < Nat.pow 2 16 := Nat.lt_succ_of_le (Nat.sub_le _ _)
  have sizes := (BitWriter.emits_put (by decide) (show bytes.size < Nat.pow 2 16 from
    Nat.lt_succ_of_le short)).comp (BitWriter.emits_put (by decide) complement)
  obtain ⟨sized, sizedBits⟩ := sizes _ head.align
  dsimp only at sized sizedBits
  simp only [writeStored]
  generalize ((w.put (if last then 1 else 0) 3).align.put bytes.size 16).put (65535 - bytes.size) 16 =
    w' at sized sizedBits ⊢
  rw [BitWriter.bits_of_width_eq_zero (BitWriter.width_align _)] at sizedBits
  -- Whole bytes have been written, so that the bytes of the block can follow.
  have whole : w'.width = 0 := by
    have length := congrArg List.length sizedBits
    have short := sized.short
    simp only [BitWriter.length_bits, List.length_append, length_bitsOf, length_lowBits] at length
    omega
  have follows : BitWriter.width { w' with bytes := w'.bytes ++ bytes } = 0 := whole
  refine ⟨⟨sized.short, sized.small⟩, ?_⟩
  rw [BitWriter.bits_of_width_eq_zero whole, BitWriter.bits_align head, headBits] at sizedBits
  rw [BitWriter.bits_of_width_eq_zero follows, bitsOf_append, sizedBits, storedBits]
  simp only [List.length_append, length_lowBits, List.append_assoc]

theorem inflates_stored {bytes : Bytes} (short : bytes.size ≤ 65535) (written : Nat) (out : Bytes) :
    Inflates 0 written (storedBits written bytes) out (out ++ bytes) := by
  intro packed position phase inside ahead
  have room := ahead.end_le inside
  have sizes := ahead.left.right
  have body := ahead.right
  have boundary : position + (BitWriter.padding written).length = (position + 7) / 8 * 8 := by
    rw [BitWriter.padding, List.length_replicate]
    omega
  rw [boundary] at sizes
  have length := sizes.left.bitsAt (Nat.lt_succ_of_le short)
  have complement := sizes.right.bitsAt (Nat.lt_succ_of_le (Nat.sub_le _ _))
  rw [length_lowBits] at complement
  have start : position + (BitWriter.padding written ++ (lowBits bytes.size 16 ++
      lowBits (65535 - bytes.size) 16)).length = 8 * ((position + 7) / 8 * 8 / 8 + 4) := by
    simp only [List.length_append, length_lowBits]
    omega
  rw [storedBits, List.length_append, ← Nat.add_assoc, start, length_bitsOf] at room
  rw [start] at body
  have whole : bytes.size + (65535 - bytes.size) = 65535 := Nat.add_sub_cancel' short
  have enough : ¬packed.size < (position + 7) / 8 * 8 / 8 + 4 + bytes.size := by omega
  simp only [inflateBlock, inflateStored, length, complement, bind, Except.bind, whole, ne_eq,
    not_true_eq_false, if_false, if_neg enough, body.extract (by omega)]
  rw [storedBits, List.length_append, ← Nat.add_assoc, start, length_bitsOf, ← Nat.mul_add]
  rfl

/-! ### Pieces -/

theorem length_pieceBits {literals distances : List Nat} {piece : Piece}
    (coded : piece.Coded literals distances) : 0 < (pieceBits literals distances piece).length := by
  cases piece with
  | literal b =>
      rw [pieceBits, length_codeword]
      exact coded
  | copy length distance =>
      simp only [pieceBits, rangeBits, List.length_append, length_codeword]
      have used := coded.1
      omega

theorem length_le_pieceBits {literals distances : List Nat} {pieces : List Piece}
    (coded : ∀ piece ∈ pieces, piece.Coded literals distances) :
    pieces.length ≤ (pieces.flatMap (pieceBits literals distances)).length := by
  induction pieces with
  | nil => exact Nat.le_refl 0
  | cons piece pieces ih =>
      obtain ⟨first, rest⟩ := List.forall_mem_cons.mp coded
      have positive := length_pieceBits first
      have more := ih rest
      rw [List.flatMap_cons, List.length_append, List.length_cons]
      omega

/-- A block has a bit for each piece, so that the bits of the stream are fuel enough. -/
theorem inflateSymbols_block {longest longest' : Nat} {literals distances : List Nat}
    (complete : Complete longest literals) (complete' : Complete longest' distances)
    (ends : 0 < literals.getD endMark 0) {data packed : Bytes} {start stop : Nat}
    {pieces : List Piece} (stands : Stands data start pieces stop)
    (coded : ∀ piece ∈ pieces, piece.Coded literals distances) {position : Nat}
    (inside : position ≤ 8 * packed.size)
    (ahead : Ahead packed position (piecesBits literals distances pieces)) :
    inflateSymbols (.ofLengths literals) (.ofLengths distances) packed (8 * packed.size + 1) position
      (data.extract 0 start) =
        .ok (position + (piecesBits literals distances pieces).length, data.extract 0 stop) := by
  have room := ahead.left.end_le inside
  have fewer := length_le_pieceBits coded
  exact inflateSymbols_pieces complete complete' ends stands coded (by omega) ahead

theorem inflates_fixed {data : Bytes} {start stop : Nat} {pieces : List Piece}
    (stands : Stands data start pieces stop) (written : Nat) :
    Inflates 1 written (piecesBits fixedLiteralLengths fixedDistanceLengths pieces)
      (data.extract 0 start) (data.extract 0 stop) := by
  intro packed position _ inside ahead
  exact inflateSymbols_block complete_fixedLiterals complete_fixedDistances
    (fixedLiterals_pos (by decide)) stands (fun piece _ => coded_fixed piece) inside ahead

theorem inflates_own {codes : BlockCodes} (sound : codes.Sound) {data : Bytes} {start stop : Nat}
    {pieces : List Piece} (stands : Stands data start pieces stop)
    (coded : ∀ piece ∈ pieces, piece.Coded codes.literals codes.distances) (written : Nat) :
    Inflates 2 written (codes.bits ++ piecesBits codes.literals codes.distances pieces)
      (data.extract 0 start) (data.extract 0 stop) := by
  intro packed position _ inside ahead
  have room := ahead.left.end_le inside
  rw [inflateBlock, readCodes_eq sound ahead.left]
  rw [List.length_append, ← Nat.add_assoc]
  exact inflateSymbols_block sound.literals sound.distances sound.endMark stands coded room ahead.right

/-! ### The room that a block takes -/

theorem bitsFor_le {lengths : Array Nat} {extra : Nat → Nat} {most : Nat}
    (bound : ∀ symbol, lengths.getD symbol 0 + extra symbol ≤ most) (weights : Array Nat) :
    bitsFor weights lengths extra ≤ most * total (fun n => n) weights.toList := by
  have run (weights : List Nat) (symbol sum : Nat) :
      (weights.zipIdx symbol).foldl (fun n p => n + p.1 * (lengths.getD p.2 0 + extra p.2)) sum ≤
        sum + most * total (fun n => n) weights := by
    induction weights generalizing symbol sum with
    | nil => exact Nat.le_refl _
    | cons weight weights ih =>
        have rest := ih (symbol + 1) (sum + weight * (lengths.getD symbol 0 + extra symbol))
        have first := Nat.mul_le_mul_left weight (bound symbol)
        rw [Nat.mul_comm weight most] at first
        rw [List.zipIdx_cons, List.foldl_cons, total, Nat.left_distrib most]
        dsimp only
        omega
  have whole := run weights.toList 0 0
  rwa [Nat.zero_add] at whole

theorem total_modify (counts : Array Nat) (i : Nat) :
    total (fun n => n) (counts.modify i (· + 1)).toList ≤ total (fun n => n) counts.toList + 1 := by
  rw [Array.toList_modify]
  generalize counts.toList = counts
  induction counts generalizing i with
  | nil =>
      rw [List.modify_nil]
      exact Nat.le_succ _
  | cons n counts ih =>
      cases i with
      | zero =>
          rw [List.modify_zero_cons, total, total]
          omega
      | succ i =>
          have rest := ih i
          rw [List.modify_succ_cons, total, total]
          omega

/-- Each piece adds one to the weights of each kind at most. -/
theorem total_weightsOf (pieces : Array Piece) :
    total (fun n => n) (weightsOf pieces).literals.toList ≤ pieces.size + 1 ∧
      total (fun n => n) (weightsOf pieces).distances.toList ≤ pieces.size := by
  have run (pieces : List Piece) (weights : Weights) :
      total (fun n => n) (pieces.foldl Weights.tally weights).literals.toList ≤
          pieces.length + total (fun n => n) weights.literals.toList ∧
        total (fun n => n) (pieces.foldl Weights.tally weights).distances.toList ≤
          pieces.length + total (fun n => n) weights.distances.toList := by
    induction pieces generalizing weights with
    | nil => exact ⟨Nat.le_add_left _ _, Nat.le_add_left _ _⟩
    | cons piece pieces ih =>
        obtain ⟨literals, distances⟩ := weights
        obtain ⟨first, second⟩ := ih (Weights.tally ⟨literals, distances⟩ piece)
        rw [List.foldl_cons, List.length_cons]
        cases piece with
        | literal b =>
            have more := total_modify literals b.toNat
            simp only [Weights.tally] at first second ⊢
            omega
        | copy length distance =>
            have more := total_modify literals (257 + (lengthEntry length).1)
            have more' := total_modify distances (distanceEntry distance).1
            simp only [Weights.tally] at first second ⊢
            omega
  obtain ⟨literals, distances⟩ :=
    run pieces.toList ⟨(Array.replicate 286 0).setIfInBounds endMark 1, Array.replicate 30 0⟩
  have one : total (fun n => n) ((Array.replicate 286 0).setIfInBounds endMark 1).toList = 1 := by
    decide +kernel
  have zero : total (fun n => n) (Array.replicate 30 0).toList = 0 := by decide +kernel
  rw [one, Array.foldl_toList, Array.length_toList] at literals
  rw [zero, Array.foldl_toList, Array.length_toList] at distances
  exact ⟨literals, distances⟩

theorem width_getD_le {bases : Array (Nat × Nat)} {most : Nat}
    (short : ∀ entry ∈ bases.toList, entry.2 ≤ most) (i : Nat) : (bases.getD i (0, 0)).2 ≤ most := by
  rw [Array.getD_eq_getD_getElem?]
  cases found : bases[i]? with
  | none => exact Nat.zero_le most
  | some entry => exact width_le_of_getElem? short found

/-- With the fixed codes a piece takes at most thirty-two bits. -/
theorem fixedBits_le (pieces : Array Piece) :
    bitsFor (weightsOf pieces).literals fixedLiteralLengths.toArray literalExtra +
      bitsFor (weightsOf pieces).distances fixedDistanceLengths.toArray distanceExtra ≤
        32 * pieces.size + 14 := by
  obtain ⟨literals, distances⟩ := total_weightsOf pieces
  have most (symbol : Nat) : fixedLiteralLengths.toArray.getD symbol 0 + literalExtra symbol ≤ 14 := by
    have length := complete_fixedLiterals.getD_le symbol
    have extra : literalExtra symbol ≤ 5 := by
      rw [literalExtra]
      split
      · exact Nat.zero_le 5
      · exact width_getD_le (by decide) _
    rw [← getD_toList]
    exact Nat.add_le_add length extra
  have most' (symbol : Nat) :
      fixedDistanceLengths.toArray.getD symbol 0 + distanceExtra symbol ≤ 18 := by
    have extra : distanceExtra symbol ≤ 13 := width_getD_le (by decide) symbol
    rw [← getD_toList]
    exact Nat.add_le_add (complete_fixedDistances.getD_le symbol) extra
  have first := bitsFor_le most (weightsOf pieces).literals
  have second := bitsFor_le most' (weightsOf pieces).distances
  omega

/-! ### Whole blocks -/

/-- The head of a block, with its kind and whether it is the last one. -/
def headBits (kind : Nat) (last : Bool) : List Nat := lowBits (2 * kind + if last then 1 else 0) 3

/-- `w'` is `w` with one more block, which takes `before` to `after`. -/
def AddsBlock (last : Bool) (before after : Bytes) (w w' : BitWriter) : Prop :=
  ∃ kind bits, kind < 3 ∧ w'.Settled ∧ w'.bits = w.bits ++ (headBits kind last ++ bits) ∧
    Inflates kind (w.bits.length + 3) bits before after

theorem emits_head {kind : Nat} (known : kind < 3) (last : Bool) :
    BitWriter.Emits (fun w => w.put (2 * kind + if last then 1 else 0) 3) (headBits kind last) := by
  apply BitWriter.emits_put (by decide)
  show _ < 8
  split <;> omega

section
variable {data : Bytes} {block : Block}
  (stands : Stands data block.start block.pieces.toList block.stop)
include stands

theorem addsBlock_stored (short : block.stop - block.start ≤ 65535) (last : Bool) {w : BitWriter}
    (settled : w.Settled) :
    AddsBlock last (data.extract 0 block.start) (data.extract 0 block.stop) w
      (writeStored (data.extract block.start block.stop) last w) := by
  obtain ⟨ordered, inside⟩ := stands.bounds
  have size : (data.extract block.start block.stop).size ≤ 65535 := by
    rw [Array.size_extract]
    omega
  obtain ⟨settled', bits⟩ := writeStored_spec size last settled
  have inflates := inflates_stored size (w.bits.length + 3) (data.extract 0 block.start)
  rw [Array.extract_append_extract, Nat.min_eq_left (Nat.zero_le _), Nat.max_eq_right ordered]
    at inflates
  refine ⟨0, _, by decide, settled', ?_, inflates⟩
  rw [bits, headBits, Nat.mul_zero, Nat.zero_add]

theorem addsBlock_fixed (last : Bool) {w : BitWriter} (settled : w.Settled) :
    AddsBlock last (data.extract 0 block.start) (data.extract 0 block.stop) w
      (writePieces (codewords fixedLiteralLengths) (codewords fixedDistanceLengths) block.pieces
        (w.put (2 + if last then 1 else 0) 3)) := by
  have pieces := emits_writePieces complete_fixedLiterals complete_fixedDistances (by decide)
    (by decide) (fun piece _ => coded_fixed piece) stands.allowed (fixedLiterals_pos (by decide))
  obtain ⟨settled', bits⟩ := (emits_head (by decide : 1 < 3) last).comp pieces w settled
  exact ⟨1, _, by decide, settled', bits, inflates_fixed stands _⟩

theorem addsBlock_own {codes : BlockCodes} (sound : codes.Sound)
    (coded : ∀ piece ∈ block.pieces.toList, piece.Coded codes.literals codes.distances) (last : Bool)
    {w : BitWriter} (settled : w.Settled) :
    AddsBlock last (data.extract 0 block.start) (data.extract 0 block.stop) w
      (writePieces (codewords codes.literals) (codewords codes.distances) block.pieces
        (codes.write (w.put (4 + if last then 1 else 0) 3))) := by
  have pieces := emits_writePieces sound.literals sound.distances (by decide) (by decide) coded
    stands.allowed sound.endMark
  obtain ⟨settled', bits⟩ :=
    (emits_head (by decide : 2 < 3) last).comp (sound.emits.comp pieces) w settled
  exact ⟨2, _, by decide, settled', bits, inflates_own sound stands coded _⟩

theorem addsBlock_writeBlock (few : block.pieces.size ≤ blockPieces) (last : Bool) {w : BitWriter}
    (settled : w.Settled) :
    AddsBlock last (data.extract 0 block.start) (data.extract 0 block.stop) w
      (writeBlock data block last w) := by
  obtain ⟨whole, has⟩ := weightsOf_spec block.pieces
  obtain ⟨sound, coded⟩ := blockCodes_spec whole
  have most := fixedBits_le block.pieces
  simp only [blockPieces] at few
  simp only [writeBlock]
  split
  next stored =>
    have room := Nat.le_trans stored.1 (Nat.min_le_right _ _)
    exact addsBlock_stored stands (by omega) last settled
  next =>
    split
    · exact addsBlock_fixed stands last settled
    · exact addsBlock_own stands sound (fun piece member => coded piece (has piece member)) last
        settled

end

/-! ### Runs of blocks -/

theorem inflateBlocks_head {kind written : Nat} {last : Bool} {bits : List Nat} {before after : Bytes}
    (known : kind < 3) (inflates : Inflates kind (written + 3) bits before after) {packed : Bytes}
    {position : Nat} (phase : position % 8 = written % 8) (inside : position ≤ 8 * packed.size)
    (ahead : Ahead packed position (headBits kind last ++ bits)) (fuel : Nat) :
    inflateBlocks packed (fuel + 1) position before =
      if last then .ok (position + (headBits kind last ++ bits).length, after)
      else inflateBlocks packed fuel (position + (headBits kind last ++ bits).length) after := by
  have length : (headBits kind last).length = 3 := length_lowBits _ _
  have room := ahead.left.end_le inside
  have body := ahead.right
  rw [length] at room body
  have small : 2 * kind + (if last then 1 else 0) < Nat.pow 2 3 := by
    show _ < 8
    split <;> omega
  have head := ahead.left.bitsAt small
  have block := inflates packed (position + 3) (by omega) room body
  rw [List.length_append, length, ← Nat.add_assoc]
  cases last with
  | true =>
      have half : (2 * kind + 1) / 2 = kind := by omega
      have odd : (2 * kind + 1) % 2 = 1 := by omega
      simp only [if_true] at head
      simp only [inflateBlocks, head, half, odd, block, bind, Except.bind, if_true]
      rfl
  | false =>
      have half : (2 * kind + 0) / 2 = kind := by omega
      have even : ¬(2 * kind + 0) % 2 = 1 := by omega
      simp only [Bool.false_eq_true, if_false] at head
      simp only [inflateBlocks, head, half, if_neg even, block, bind, Except.bind,
        Bool.false_eq_true, if_false]

/-- Blocks that cover a stretch of the data are read as that stretch. The fuel is the number of their
bits, of which each block takes some. -/
theorem writeBlocks_spec {data : Bytes} {start stop : Nat} {blocks : List Block}
    (covers : Covers data start blocks stop) (nonempty : blocks ≠ []) {w : BitWriter}
    (settled : w.Settled) :
    ∃ bits, (writeBlocks data blocks w).Settled ∧ (writeBlocks data blocks w).bits = w.bits ++ bits ∧
      ∀ (packed : Bytes) (position fuel : Nat), position % 8 = w.bits.length % 8 →
        position ≤ 8 * packed.size → Ahead packed position bits → bits.length ≤ fuel →
          inflateBlocks packed fuel position (data.extract 0 start) =
            .ok (position + bits.length, data.extract 0 stop) := by
  induction covers generalizing w with
  | nil => exact absurd rfl nonempty
  | @cons stop block blocks stands few rest ih =>
      cases blocks with
      | nil =>
          obtain rfl := rest.eq_of_nil
          obtain ⟨kind, bits, known, settled', same, inflates⟩ :=
            addsBlock_writeBlock stands few true settled
          refine ⟨_, settled', same, ?_⟩
          intro packed position fuel phase inside ahead enough
          rw [List.length_append, headBits, length_lowBits] at enough
          obtain ⟨fuel, rfl⟩ : ∃ more, fuel = more + 1 := ⟨fuel - 1, by omega⟩
          exact inflateBlocks_head known inflates phase inside ahead fuel
      | cons next blocks =>
          obtain ⟨kind, bits, known, settled', same, inflates⟩ :=
            addsBlock_writeBlock stands few false settled
          obtain ⟨more, settled'', same', reads⟩ := ih (List.cons_ne_nil _ _) settled'
          rw [same] at same' reads
          refine ⟨headBits kind false ++ bits ++ more, settled'', ?_, ?_⟩
          · rw [← List.append_assoc]
            exact same'
          · intro packed position fuel phase inside ahead enough
            rw [List.length_append] at enough
            have room := ahead.left.end_le inside
            have spent : 0 < (headBits kind false ++ bits).length := by
              rw [List.length_append, headBits, length_lowBits]
              omega
            obtain ⟨fuel, rfl⟩ : ∃ more, fuel = more + 1 := ⟨fuel - 1, by omega⟩
            have later := reads packed (position + (headBits kind false ++ bits).length) fuel
              (by simp only [List.length_append]; omega) room ahead.right (by omega)
            rw [inflateBlocks_head known inflates phase inside ahead.left fuel,
              if_neg Bool.false_ne_true, later, Nat.add_assoc, ← List.length_append]

end TapeChain.Packing
