import TapeChain.Proofs.CodeLengths
import TapeChain.Proofs.LengthRuns

/-! The codes of a block. They are made for the weights of its pieces, so that every piece has
codewords, and are written in front of the block in a third code; the reader finds the same lengths
and accepts the codes. -/
namespace TapeChain.Packing

/-! ### Trailing zeros -/

/-- A list without its trailing zeros, or with only some of them. -/
def Trims (short long : List Nat) : Prop := ∃ count, short ++ List.replicate count 0 = long

namespace Trims
variable {short long : List Nat}

theorem dropWhile (list : List Nat) : Trims (list.reverse.dropWhile (· = 0)).reverse list := by
  refine ⟨(list.reverse.takeWhile (· = 0)).length, ?_⟩
  have zeros : list.reverse.takeWhile (· = 0) =
      List.replicate (list.reverse.takeWhile (· = 0)).length 0 :=
    List.eq_replicate_of_mem fun n member =>
      of_decide_eq_true (List.all_eq_true.mp List.all_takeWhile n member)
  calc (list.reverse.dropWhile (· = 0)).reverse ++
        List.replicate (list.reverse.takeWhile (· = 0)).length 0
      = (list.reverse.takeWhile (· = 0) ++ list.reverse.dropWhile (· = 0)).reverse := by
        rw [List.reverse_append, zeros, List.reverse_replicate, List.length_replicate]
    _ = list := by rw [List.takeWhile_append_dropWhile, List.reverse_reverse]

theorem getD (trims : Trims short long) (i : Nat) : short.getD i 0 = long.getD i 0 := by
  obtain ⟨count, rfl⟩ := trims
  by_cases inside : i < short.length
  · rw [List.getD_eq_getElem?_getD, List.getD_eq_getElem?_getD, List.getElem?_append_left inside]
  · have past := Nat.le_of_not_lt inside
    rw [List.getD_eq_getElem?_getD, List.getD_eq_getElem?_getD, List.getElem?_append_right past,
      List.getElem?_eq_none past, List.getElem?_replicate]
    split <;> rfl

theorem length_le (trims : Trims short long) : short.length ≤ long.length := by
  obtain ⟨count, rfl⟩ := trims
  rw [List.length_append]
  exact Nat.le_add_right _ _

theorem covered (trims : Trims short long) (width : Nat) :
    covered short width = covered long width := by
  obtain ⟨count, rfl⟩ := trims
  induction width with
  | zero => rfl
  | succ width ih =>
      have unused : (List.replicate count 0).count (width + 1) = 0 := by
        rw [List.count_replicate]
        rfl
      rw [Packing.covered, Packing.covered, ih, List.count_append, unused]
      rfl

theorem complete {longest : Nat} (trims : Trims short long) (complete : Complete longest long) :
    Complete longest short where
  short length member := by
    obtain ⟨count, rfl⟩ := trims
    exact complete.short length (List.mem_append_left _ member)
  full := by rw [trims.covered, complete.full]

end Trims

theorem trims_trimZeros (lengths : Array Nat) : Trims (trimZeros lengths) lengths.toList :=
  .dropWhile lengths.toList

/-! ### Weights -/

namespace Weights

/-- The symbols of a piece have weights. -/
def Has (weights : Weights) : Piece → Prop
  | .literal b => weights.literals.getD b.toNat 0 ≠ 0
  | .copy length distance => weights.literals.getD (257 + (lengthEntry length).1) 0 ≠ 0 ∧
    weights.distances.getD (distanceEntry distance).1 0 ≠ 0

/-- Weights for the whole of the two alphabets, with one for the end mark. -/
structure Whole (weights : Weights) : Prop where
  literals : weights.literals.size = 286
  distances : weights.distances.size = 30
  endMark : weights.literals.getD endMark 0 ≠ 0

theorem getD_modify_ne_zero {counts : Array Nat} {i : Nat} (inside : i < counts.size) (j : Nat)
    (either : i = j ∨ counts.getD j 0 ≠ 0) : (counts.modify i (· + 1)).getD j 0 ≠ 0 := by
  rw [getD_modify inside]
  split
  · exact Nat.succ_ne_zero _
  next other => exact either.resolve_left other

theorem lengthEntry_lt (length : Nat) : 257 + (lengthEntry length).1 < 286 :=
  Nat.add_lt_add_left (entryFor_lt lengthBases length (by decide)) 257

theorem distanceEntry_lt (distance : Nat) : (distanceEntry distance).1 < 30 :=
  entryFor_lt distanceBases distance (by decide)

variable {weights : Weights}

theorem Has.mono {weights' : Weights}
    (literals : ∀ j, weights.literals.getD j 0 ≠ 0 → weights'.literals.getD j 0 ≠ 0)
    (distances : ∀ j, weights.distances.getD j 0 ≠ 0 → weights'.distances.getD j 0 ≠ 0)
    {piece : Piece} (has : weights.Has piece) : weights'.Has piece := by
  cases piece with
  | literal b => exact literals _ has
  | copy length distance => exact ⟨literals _ has.1, distances _ has.2⟩

/-- A piece that is tallied has weights from then on. -/
theorem Whole.tally (whole : Whole weights) (piece : Piece) :
    Whole (weights.tally piece) ∧ (weights.tally piece).Has piece ∧
      ∀ other, weights.Has other → (weights.tally piece).Has other := by
  obtain ⟨literals, distances⟩ := weights
  cases piece with
  | literal b =>
      have inside : b.toNat < literals.size := by
        rw [whole.literals]
        exact Nat.lt_trans b.toNat_lt (by decide)
      have literals' := getD_modify_ne_zero inside
      refine ⟨⟨?_, whole.distances, literals' _ (.inr whole.endMark)⟩, literals' _ (.inl rfl), ?_⟩
      · exact Array.size_modify.trans whole.literals
      · intro other has
        refine has.mono (fun j old => literals' j (.inr old)) ?_
        exact fun j old => old
  | copy length distance =>
      have inside : 257 + (lengthEntry length).1 < literals.size := by
        rw [whole.literals]
        exact lengthEntry_lt length
      have inside' : (distanceEntry distance).1 < distances.size := by
        rw [whole.distances]
        exact distanceEntry_lt distance
      have literals' := getD_modify_ne_zero inside
      have distances' := getD_modify_ne_zero inside'
      refine ⟨⟨?_, ?_, literals' _ (.inr whole.endMark)⟩,
        ⟨literals' _ (.inl rfl), distances' _ (.inl rfl)⟩, ?_⟩
      · exact Array.size_modify.trans whole.literals
      · exact Array.size_modify.trans whole.distances
      · exact fun other has =>
          has.mono (fun j old => literals' j (.inr old)) fun j old => distances' j (.inr old)

end Weights

/-- The weights of pieces cover all of them. -/
theorem weightsOf_spec (pieces : Array Piece) :
    (weightsOf pieces).Whole ∧ ∀ piece ∈ pieces.toList, (weightsOf pieces).Has piece := by
  have run (pieces : List Piece) (weights : Weights) (whole : weights.Whole) :
      (pieces.foldl Weights.tally weights).Whole ∧
        (∀ piece, weights.Has piece → (pieces.foldl Weights.tally weights).Has piece) ∧
          ∀ piece ∈ pieces, (pieces.foldl Weights.tally weights).Has piece := by
    induction pieces generalizing weights with
    | nil => exact ⟨whole, fun _ has => has, fun piece member => by cases member⟩
    | cons piece pieces ih =>
        obtain ⟨whole', has, kept⟩ := whole.tally piece
        obtain ⟨final, later, all⟩ := ih (weights.tally piece) whole'
        refine ⟨final, fun other old => later other (kept other old), fun other member => ?_⟩
        cases member with
        | head => exact later piece has
        | tail _ member => exact all other member
  have start : Weights.Whole
      ⟨(Array.replicate 286 0).setIfInBounds endMark 1, Array.replicate 30 0⟩ := by
    refine ⟨by simp, by simp, ?_⟩
    have one : ((Array.replicate 286 0).setIfInBounds endMark 1).getD endMark 0 = 1 :=
      Forest.getD_setIfInBounds_self (by simp [endMark]) 1
    dsimp only
    rw [one]
    exact Nat.one_ne_zero
  obtain ⟨whole, _, all⟩ := run pieces.toList _ start
  rw [weightsOf, ← Array.foldl_toList]
  exact ⟨whole, all⟩

/-! ### The codes of a block -/

/-- What is needed of the codes of a block. -/
structure BlockCodes.Sound (codes : BlockCodes) : Prop where
  literals : Complete 15 codes.literals
  distances : Complete 15 codes.distances
  lengths : Complete 7 codes.symbolLengths.toList
  literalCount : 257 ≤ codes.literals.length ∧ codes.literals.length ≤ 286
  distanceCount : 1 ≤ codes.distances.length ∧ codes.distances.length ≤ 30
  endMark : 0 < codes.literals.getD endMark 0
  spells : Spells [] codes.symbols (codes.literals ++ codes.distances).reverse
  used : ∀ s ∈ codes.symbols, 0 < codes.symbolLengths.toList.getD s.symbol 0
  size : codes.symbolLengths.size = 19
  stored : Trims codes.stored (codeLengthOrder.map fun s => codes.symbolLengths.getD s 0)
  storedCount : 4 ≤ codes.stored.length

/-- A symbol of the code for lengths whose extra value fits its width. -/
def LengthSymbol.Fits (s : LengthSymbol) : Prop :=
  s.symbol < 19 ∧ s.width ≤ 16 ∧ s.extra < Nat.pow 2 s.width

theorem Spells.fits {before after : List Nat} {symbols : List LengthSymbol}
    (spells : Spells before symbols after) : ∀ s ∈ symbols, s.Fits := by
  induction spells with
  | nil => intro s member; cases member
  | length short _ ih =>
      exact List.forall_mem_cons.mpr
        ⟨⟨Nat.lt_of_lt_of_le short (by decide), Nat.zero_le 16, Nat.one_pos⟩, ih⟩
  | again small _ ih =>
      exact List.forall_mem_cons.mpr ⟨⟨(by decide : 16 < 19), (by decide : 2 ≤ 16), small⟩, ih⟩
  | zeros run small _ ih =>
      refine List.forall_mem_cons.mpr ⟨?_, ih⟩
      obtain ⟨rfl, rfl, rfl⟩ | ⟨rfl, rfl, rfl⟩ := run
      · exact ⟨(by decide : 17 < 19), (by decide : 3 ≤ 16), small⟩
      · exact ⟨(by decide : 18 < 19), (by decide : 7 ≤ 16), small⟩

/-- Symbols that occur are counted. -/
theorem symbolCounts_spec {symbols : List LengthSymbol} (inside : ∀ s ∈ symbols, s.symbol < 19) :
    (symbolCounts symbols).size = 19 ∧
      ∀ s ∈ symbols, (symbolCounts symbols).getD s.symbol 0 ≠ 0 := by
  have run (counts : Array Nat) (size : counts.size = 19) :
      (symbols.foldl (fun (c : Array Nat) s => c.modify s.symbol (· + 1)) counts).size = 19 ∧
        ∀ j, counts.getD j 0 ≠ 0 ∨ (∃ s ∈ symbols, s.symbol = j) →
          (symbols.foldl (fun (c : Array Nat) s => c.modify s.symbol (· + 1)) counts).getD j 0 ≠
            0 := by
    induction symbols generalizing counts with
    | nil => exact ⟨size, fun j either => either.resolve_right fun ⟨s, member, _⟩ => by cases member⟩
    | cons first symbols ih =>
        have bump := Weights.getD_modify_ne_zero (size ▸ inside first List.mem_cons_self)
        obtain ⟨final, later⟩ := ih (fun s member => inside s (List.mem_cons_of_mem _ member))
          (counts.modify first.symbol (· + 1)) (Array.size_modify.trans size)
        refine ⟨final, fun j either => later j ?_⟩
        obtain old | ⟨s, member, same⟩ := either
        · exact .inl (bump j (.inr old))
        · cases member with
          | head => exact .inl (bump j (.inl same))
          | tail _ member => exact .inr ⟨s, member, same⟩
  obtain ⟨size, counted⟩ := run (Array.replicate 19 0) Array.size_replicate
  exact ⟨size, fun s member => counted s.symbol (.inr ⟨s, member, rfl⟩)⟩

/-- Only zeros are left out of the stored lengths. -/
theorem storedLengths_spec (symbolLengths : Array Nat) :
    Trims (storedLengths symbolLengths) (codeLengthOrder.map fun s => symbolLengths.getD s 0) ∧
      4 ≤ (storedLengths symbolLengths).length := by
  have trims := Trims.dropWhile (codeLengthOrder.map fun s => symbolLengths.getD s 0)
  have length : (codeLengthOrder.map fun s => symbolLengths.getD s 0).length = 19 := List.length_map _
  simp only [storedLengths]
  generalize codeLengthOrder.map (fun s => symbolLengths.getD s 0) = ordered at trims length ⊢
  generalize (ordered.reverse.dropWhile (· = 0)).reverse = stored at trims ⊢
  split
  next few =>
    obtain ⟨count, rfl⟩ := trims
    rw [List.length_append, List.length_replicate] at length
    have first : (stored ++ List.replicate count 0).take 4 =
        stored ++ List.replicate (4 - stored.length) 0 := by
      rw [List.take_append, List.take_of_length_le (Nat.le_of_lt few), List.take_replicate,
        Nat.min_eq_left (by omega)]
    have rest : 4 - stored.length + (count - (4 - stored.length)) = count := by omega
    refine ⟨⟨count - (4 - stored.length), ?_⟩, ?_⟩
    · rw [first, List.append_assoc, List.replicate_append_replicate, rest]
    · rw [List.length_take, List.length_append, List.length_replicate]
      omega
  next enough => exact ⟨trims, Nat.le_of_not_lt enough⟩

theorem getD_toList (array : Array Nat) (i : Nat) : array.toList.getD i 0 = array.getD i 0 := by
  rw [List.getD_eq_getElem?_getD, Array.getElem?_toList, Array.getD_eq_getD_getElem?]

/-- The trimmed lengths for weights, and where they end. -/
theorem trimZeros_codeLengths {weights : Array Nat} (large : 3 ≤ weights.size)
    (few : weights.size ≤ Nat.pow 2 15) :
    Complete 15 (trimZeros (codeLengths 15 weights.toList)) ∧
      (trimZeros (codeLengths 15 weights.toList)).length ≤ weights.size ∧
        ∀ symbol, weights.getD symbol 0 ≠ 0 →
          0 < (trimZeros (codeLengths 15 weights.toList)).getD symbol 0 := by
  have trims := trims_trimZeros (codeLengths 15 weights.toList)
  have size : (codeLengths 15 weights.toList).toList.length = weights.size :=
    size_codeLengths large few
  refine ⟨trims.complete (complete_codeLengths large few), size ▸ trims.length_le, ?_⟩
  intro symbol used
  rw [trims.getD, getD_toList]
  rw [← getD_toList] at used
  exact codeLengths_pos large few used

theorem Complete.length_pos {longest : Nat} {lengths : List Nat} (complete : Complete longest lengths) :
    0 < lengths.length := by
  cases lengths with
  | nil =>
      have full := complete.full
      rw [covered_nil] at full
      exact absurd full (Nat.ne_of_lt (Nat.two_pow_pos longest))
  | cons length lengths => exact Nat.succ_pos _

theorem BlockCodes.symbolLengths_ofLengths (literals distances : List Nat) :
    (ofLengths literals distances).symbolLengths =
      codeLengths 7 (symbolCounts (lengthSymbols literals ++ lengthSymbols distances)).toList := by
  simp only [ofLengths]

theorem BlockCodes.stored_ofLengths (literals distances : List Nat) :
    (ofLengths literals distances).stored =
      storedLengths (ofLengths literals distances).symbolLengths := by
  simp only [ofLengths]

theorem BlockCodes.sound_ofLengths {literals distances : List Nat} (complete : Complete 15 literals)
    (complete' : Complete 15 distances) (ends : 0 < literals.getD endMark 0)
    (few : literals.length ≤ 286) (few' : distances.length ≤ 30) :
    (ofLengths literals distances).Sound := by
  have spells : Spells [] (lengthSymbols literals ++ lengthSymbols distances)
      (literals ++ distances).reverse := by
    have first := Spells.lengthSymbols (fun n member => Nat.lt_succ_of_le (complete.short n member)) []
    have second := Spells.lengthSymbols
      (fun n member => Nat.lt_succ_of_le (complete'.short n member)) literals.reverse
    rw [List.append_nil] at first
    rw [List.reverse_append]
    exact first.append second
  have last : endMark < literals.length := lt_length_of_getD (Nat.ne_of_gt ends)
  obtain ⟨size, counted⟩ := symbolCounts_spec fun s member => (spells.fits s member).1
  have enough : 3 ≤ (symbolCounts (lengthSymbols literals ++ lengthSymbols distances)).toList.length := by
    rw [Array.length_toList, size]
    decide
  have room : (symbolCounts (lengthSymbols literals ++ lengthSymbols distances)).toList.length ≤
      Nat.pow 2 7 := by
    rw [Array.length_toList, size]
    decide
  constructor
  case literals => exact complete
  case distances => exact complete'
  case lengths =>
    rw [symbolLengths_ofLengths]
    exact complete_codeLengths enough room
  case literalCount => exact ⟨last, few⟩
  case distanceCount => exact ⟨complete'.length_pos, few'⟩
  case endMark => exact ends
  case spells => exact spells
  case used =>
    intro s member
    rw [symbolLengths_ofLengths, getD_toList]
    exact codeLengths_pos enough room ((getD_toList _ _).symm ▸ counted s member)
  case size =>
    rw [symbolLengths_ofLengths, size_codeLengths enough room]
    exact size
  case stored =>
    rw [stored_ofLengths]
    exact (storedLengths_spec _).1
  case storedCount =>
    rw [stored_ofLengths]
    exact (storedLengths_spec _).2

/-- The codes of a block are sound, and all its pieces have codewords. -/
theorem blockCodes_spec {weights : Weights} (whole : weights.Whole) :
    (blockCodes weights).Sound ∧ ∀ piece, weights.Has piece →
      piece.Coded (blockCodes weights).literals (blockCodes weights).distances := by
  obtain ⟨literals, few, used⟩ := trimZeros_codeLengths
    (show 3 ≤ weights.literals.size by rw [whole.literals]; decide)
    (by rw [whole.literals]; decide)
  obtain ⟨distances, few', used'⟩ := trimZeros_codeLengths
    (show 3 ≤ weights.distances.size by rw [whole.distances]; decide)
    (by rw [whole.distances]; decide)
  constructor
  · exact BlockCodes.sound_ofLengths literals distances (used endMark whole.endMark)
      (whole.literals ▸ few) (whole.distances ▸ few')
  · intro piece has
    simp only [blockCodes, BlockCodes.ofLengths]
    cases piece with
    | literal b => exact used _ has
    | copy length distance => exact ⟨used _ has.1, used' _ has.2⟩

/-! ### In front of a block -/

/-- The bits that describe the codes of a block. -/
def BlockCodes.bits (codes : BlockCodes) : List Nat :=
  lowBits (codes.literals.length - 257) 5 ++ lowBits (codes.distances.length - 1) 5 ++
    lowBits (codes.stored.length - 4) 4 ++ codes.stored.flatMap (lowBits · 3) ++
      codes.symbols.flatMap (symbolBits codes.symbolLengths.toList)

namespace BlockCodes.Sound
variable {codes : BlockCodes}

theorem stored_lt (sound : codes.Sound) : ∀ n ∈ codes.stored, n < 8 := by
  intro n member
  obtain ⟨count, same⟩ := sound.stored
  have found : n ∈ codeLengthOrder.map fun s => codes.symbolLengths.getD s 0 :=
    same ▸ List.mem_append_left _ member
  obtain ⟨s, _, rfl⟩ := List.mem_map.mp found
  rw [← getD_toList]
  exact Nat.lt_succ_of_le (sound.lengths.getD_le s)

theorem storedCount_le (sound : codes.Sound) : codes.stored.length ≤ 19 := by
  have short := sound.stored.length_le
  rw [List.length_map] at short
  exact short

theorem emits (sound : codes.Sound) : BitWriter.Emits codes.write codes.bits := by
  obtain ⟨_, literals⟩ := sound.literalCount
  obtain ⟨_, distances⟩ := sound.distanceCount
  have stored := sound.storedCount_le
  have sizes : BitWriter.Emits
      (fun w => ((w.put (codes.literals.length - 257) 5).put (codes.distances.length - 1) 5).put
        (codes.stored.length - 4) 4) _ :=
    ((BitWriter.emits_put (by decide) (show codes.literals.length - 257 < 32 by omega)).comp
      (BitWriter.emits_put (by decide) (show codes.distances.length - 1 < 32 by omega))).comp
        (BitWriter.emits_put (by decide) (show codes.stored.length - 4 < 16 by omega))
  have lengths : BitWriter.Emits
      (fun w => codes.stored.foldl (fun (w : BitWriter) n => w.put n 3) w) _ :=
    .foldl fun n member => BitWriter.emits_put (by decide) (sound.stored_lt n member)
  have symbols : BitWriter.Emits (fun w => codes.symbols.foldl (fun (w : BitWriter) s =>
      (w.put ((codewords codes.symbolLengths.toList).getD s.symbol (0, 0)).1
        ((codewords codes.symbolLengths.toList).getD s.symbol (0, 0)).2).put s.extra s.width) w) _ :=
    .foldl fun s member =>
      have fits := sound.spells.fits s member
      emits_range sound.lengths (by decide) (sound.used s member) fits.2.1 fits.2.2
  exact (sizes.comp lengths).comp symbols

end BlockCodes.Sound

theorem readCodeLengths_eq {packed : Bytes} {position : Nat} {stored : List Nat}
    (small : ∀ n ∈ stored, n < 8) (ahead : Ahead packed position (stored.flatMap (lowBits · 3))) :
    readCodeLengths packed position stored.length = .ok stored := by
  induction stored generalizing position with
  | nil => rfl
  | cons n stored ih =>
      rw [List.flatMap_cons] at ahead
      have rest := ahead.right
      rw [length_lowBits] at rest
      rw [List.length_cons, readCodeLengths, ahead.left.bitsAt (small n List.mem_cons_self),
        ih (fun n member => small n (List.mem_cons_of_mem _ member)) rest]
      rfl

/-- Looking up the stored lengths finds zero where none is stored. -/
theorem length_stored (stored : List Nat) :
    (stored.flatMap (lowBits · 3)).length = 3 * stored.length := by
  induction stored with
  | nil => rfl
  | cons n stored ih =>
      rw [List.flatMap_cons, List.length_append, ih, length_lowBits, List.length_cons]
      omega

theorem lookup_zip {order stored : List Nat} {f : Nat → Nat} (trims : Trims stored (order.map f))
    {s : Nat} (member : s ∈ order) : ((order.zip stored).lookup s).getD 0 = f s := by
  obtain ⟨count, same⟩ := trims
  induction order generalizing stored with
  | nil => cases member
  | cons first order ih =>
      cases stored with
      | nil =>
          have zero : f s ∈ List.replicate count 0 := by
            rw [List.nil_append] at same
            rw [same]
            exact List.mem_map_of_mem member
          rw [List.eq_of_mem_replicate zero]
          rfl
      | cons n stored =>
          rw [List.cons_append, List.map_cons, List.cons.injEq] at same
          rw [List.zip_cons_cons, List.lookup_cons]
          split
          next equal =>
            rw [beq_iff_eq.mp equal, ← same.1]
            rfl
          next other =>
            refine ih ((List.mem_cons.mp member).resolve_left fun equal => ?_) same.2
            rw [equal, BEq.rfl] at other
            cases other

/-- The three sizes are read as one number. -/
theorem lowBits_sizes {a b : Nat} (small : a < 32) (small' : b < 32) (c : Nat) :
    lowBits a 5 ++ lowBits b 5 ++ lowBits c 4 = lowBits (a + b * 32 + c * 1024) 14 := by
  have first : lowBits (a + (b + c * 32) * Nat.pow 2 5) (5 + 9) =
      lowBits a 5 ++ lowBits (b + c * 32) 9 := by
    have above : (a + (b + c * 32) * Nat.pow 2 5) / Nat.pow 2 5 = b + c * 32 := by
      rw [Nat.add_mul_div_right _ _ (by decide), Nat.div_eq_of_lt small, Nat.zero_add]
    rw [lowBits_add, lowBits_add_mul, above]
  have second : lowBits (b + c * Nat.pow 2 5) (5 + 4) = lowBits b 5 ++ lowBits c 4 := by
    have above : (b + c * Nat.pow 2 5) / Nat.pow 2 5 = c := by
      rw [Nat.add_mul_div_right _ _ (by decide), Nat.div_eq_of_lt small', Nat.zero_add]
    rw [lowBits_add, lowBits_add_mul, above]
  have sum : a + b * 32 + c * 1024 = a + (b + c * 32) * Nat.pow 2 5 := by
    change a + b * 32 + c * 1024 = a + (b + c * 32) * 32
    omega
  rw [sum, first, List.append_assoc]
  exact congrArg (lowBits a 5 ++ ·) second.symm

theorem map_lookup_stored {codes : BlockCodes} (sound : codes.Sound) :
    ((List.range 19).map fun i => ((codeLengthOrder.zip codes.stored).lookup i).getD 0) =
      codes.symbolLengths.toList := by
  have ordered : ∀ i < 19, i ∈ codeLengthOrder := by decide
  apply List.ext_getElem?
  intro i
  have value : codes.symbolLengths.toList[i]? = codes.symbolLengths[i]? := Array.getElem?_toList
  rw [List.getElem?_map, value]
  by_cases inside : i < 19
  · rw [List.getElem?_range inside, Option.map_some, lookup_zip sound.stored (ordered i inside),
      Array.getD_eq_getD_getElem?, Array.getElem?_eq_getElem (sound.size.symm ▸ inside),
      Option.getD_some]
  · have past := Nat.le_of_not_lt inside
    rw [List.getElem?_eq_none (List.length_range.symm ▸ past),
      Array.getElem?_eq_none (sound.size.symm ▸ past)]
    rfl

/-- The codes in front of a block are read as they were written. -/
theorem readCodes_eq {codes : BlockCodes} (sound : codes.Sound) {packed : Bytes} {position : Nat}
    (ahead : Ahead packed position codes.bits) :
    readCodes packed position =
      .ok (.ofLengths codes.literals, .ofLengths codes.distances, position + codes.bits.length) := by
  obtain ⟨least, most⟩ := sound.literalCount
  obtain ⟨least', most'⟩ := sound.distanceCount
  have enough := sound.storedCount
  have few := sound.storedCount_le
  have small : codes.literals.length - 257 < 32 := by omega
  have small' : codes.distances.length - 1 < 32 := by omega
  rw [BlockCodes.bits, lowBits_sizes small small'] at ahead
  have sizes := ahead.left.left.bitsAt (show codes.literals.length - 257 +
    (codes.distances.length - 1) * 32 + (codes.stored.length - 4) * 1024 < 16384 by omega)
  have stored := readCodeLengths_eq sound.stored_lt ahead.left.right
  have read := readLengths_spells sound.lengths sound.spells sound.used
    (Nat.lt_succ_of_le (Nat.zero_add _ ▸ sound.spells.length_le)) ahead.right
  rw [length_lowBits] at stored
  simp only [List.length_append, length_lowBits, length_stored, List.length_reverse,
    List.reverse_reverse, ← Nat.add_assoc] at read
  have literalCount : (codes.literals.length - 257 + (codes.distances.length - 1) * 32 +
      (codes.stored.length - 4) * 1024) % 32 + 257 = codes.literals.length := by omega
  have distanceCount : (codes.literals.length - 257 + (codes.distances.length - 1) * 32 +
      (codes.stored.length - 4) * 1024) / 32 % 32 + 1 = codes.distances.length := by omega
  have lengthCount : (codes.literals.length - 257 + (codes.distances.length - 1) * 32 +
      (codes.stored.length - 4) * 1024) / 1024 + 4 = codes.stored.length := by omega
  have allowed : (decide (286 < codes.literals.length) || decide (30 < codes.distances.length)) =
      false := by
    rw [Bool.or_eq_false_iff, decide_eq_false_iff_not, decide_eq_false_iff_not]
    omega
  have ends : ¬(codes.literals ++ codes.distances).getD 256 0 = 0 := by
    have used := sound.endMark
    rw [List.getD_eq_getElem?_getD] at used
    rw [List.getD_eq_getElem?_getD, List.getElem?_append_left least]
    exact Nat.ne_of_gt used
  have spent : position + 14 + 3 * codes.stored.length +
      (codes.symbols.flatMap (symbolBits codes.symbolLengths.toList)).length =
        position + codes.bits.length := by
    simp only [BlockCodes.bits, List.length_append, length_lowBits, length_stored]
    omega
  simp only [readCodes, sizes, bind, Except.bind, literalCount, distanceCount, lengthCount, allowed,
    Bool.false_eq_true, if_false, stored, map_lookup_stored sound, sound.lengths.wellFormed,
    Bool.not_true, read, if_neg ends, List.take_left, List.drop_left, sound.literals.wellFormed,
    sound.distances.wellFormed, spent]
  rfl

end TapeChain.Packing
