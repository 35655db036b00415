import TapeChain.Proofs.Blocks

/-! Packed data is unpacked to what it was: the blocks are read as the bytes that they stand for, and
the checksum behind them agrees. -/
namespace TapeChain.Packing

/-! ### The checksum -/

theorem adler32_lt (data : Bytes) : adler32 data < 4294967296 := by
  have bounded (bytes : List UInt8) (sums : Nat × Nat) (low : sums.1 < 65521)
      (high : sums.2 < 65521) :
      (bytes.foldl adlerStep sums).1 < 65521 ∧ (bytes.foldl adlerStep sums).2 < 65521 := by
    induction bytes generalizing sums with
    | nil => exact ⟨low, high⟩
    | cons b bytes ih =>
        exact ih _ (Nat.mod_lt _ (by decide)) (Nat.mod_lt _ (by decide))
  obtain ⟨low, high⟩ := bounded data.toList (1, 0) (by decide) (by decide)
  simp only [adler32, ← Array.foldl_toList]
  omega

/-- Read from the highest byte on, the checksum is the sum again. -/
theorem foldl_checksum (data : Bytes) :
    (checksum data).foldl (fun n b => 256 * n + b.toNat) 0 = adler32 data := by
  have bound := adler32_lt data
  simp only [checksum, ← Array.foldl_toList, List.foldl_cons, List.foldl_nil, UInt8.toNat_ofNat']
  omega

/-! ### Streams -/

theorem blocksOf_ne_nil (data : Bytes) : (blocksOf data).toList ≠ [] := by
  rw [blocksOf, Scan.finish, Array.toList_push]
  exact List.append_ne_nil_of_right_ne_nil _ (List.cons_ne_nil _ _)

/-- The header, the blocks up to a byte boundary, and the checksum. -/
theorem unpack_pack (data : Bytes) : unpack (pack data) = .ok data := by
  obtain ⟨bits, settled, written, reads⟩ :=
    writeBlocks_spec (covers_blocksOf data) (blocksOf_ne_nil data) BitWriter.Settled.start
  have body := BitWriter.bits_align settled
  rw [written, show BitWriter.bits ⟨#[], 0, 0⟩ = [] from rfl, List.nil_append] at body
  simp only [pack]
  generalize (writeBlocks data (blocksOf data).toList ⟨#[], 0, 0⟩).align.bytes = blocks at body ⊢
  have length : 8 * blocks.size = bits.length + (8 - bits.length % 8) % 8 := by
    rw [← length_bitsOf, body, List.length_append, BitWriter.padding, List.length_replicate]
  have size : (header ++ blocks ++ checksum data).size = 2 + blocks.size + 4 := by
    simp only [Array.size_append]
    rfl
  have ahead : Ahead (header ++ blocks ++ checksum data) 0
      (lowBits 55928 16 ++ (bits ++ BitWriter.padding bits.length) ++ bitsOf (checksum data)) := by
    rw [Ahead, bitsOf_append, bitsOf_append, body]
    exact List.prefix_rfl
  have head := ahead.left.left.bitsAt (by decide)
  have inflated := reads _ 16 (8 * (2 + blocks.size + 4) + 1) rfl (by omega) ahead.left.right.left
    (by omega)
  rw [Array.extract_size, show data.extract 0 0 = #[] by simp] at inflated
  have start : (16 + bits.length + 7) / 8 = 2 + blocks.size := by omega
  have trailer : (header ++ blocks ++ checksum data).extract (2 + blocks.size)
      (2 + blocks.size + 4) = checksum data := by
    have behind := ahead.right
    rw [← body, List.length_append, length_lowBits, length_bitsOf,
      show 0 + (16 + 8 * blocks.size) = 8 * (2 + blocks.size) by omega] at behind
    exact behind.extract (by omega)
  simp only [unpack, head, size, inflated, start, trailer, foldl_checksum, bind, Except.bind,
    Nat.reduceMod, Nat.reduceDiv, Nat.reduceMul, Nat.reduceAdd, Nat.reduceEqDiff,
    Nat.lt_irrefl, ne_eq, not_true_eq_false, if_false]
  rfl

end TapeChain.Packing
