import TapeChain.Packing.Deflate

/-! Cutting data into pieces loses nothing. The chains of positions only lead back, so every candidate
lies before the position it is a candidate for, and a copy is taken for as many bytes as were
compared. From step to step the pieces stand for all bytes up to the current one, or up to the one
before it while that one is put off. -/
namespace TapeChain.Packing

/-! ### What pieces stand for -/

/-- The bytes from `position` on are those from the start of a copy on, for its whole length. -/
structure Repeats (data : Bytes) (position : Nat) (copy : Candidate) : Prop where
  least : leastCopy ≤ copy.length
  most : copy.length ≤ longestCopy
  earlier : copy.start < position
  near : position - copy.start ≤ farthest
  inside : position + copy.length ≤ data.size
  same : ∀ i < copy.length, data.getD (copy.start + i) 0 = data.getD (position + i) 0

/-- Pieces that stand for the bytes from one position up to another. -/
inductive Stands (data : Bytes) : Nat → List Piece → Nat → Prop where
  | nil {start : Nat} (inside : start ≤ data.size) : Stands data start [] start
  | literal {start stop : Nat} {pieces : List Piece} (inside : start < data.size)
      (rest : Stands data (start + 1) pieces stop) :
      Stands data start (.literal (data.getD start 0) :: pieces) stop
  | copy {start stop : Nat} {pieces : List Piece} {candidate : Candidate}
      (repeats : Repeats data start candidate)
      (rest : Stands data (start + candidate.length) pieces stop) :
      Stands data start (.copy candidate.length (start - candidate.start) :: pieces) stop

namespace Stands
variable {data : Bytes} {start middle stop : Nat} {pieces pieces' : List Piece}

theorem append (first : Stands data start pieces middle) (second : Stands data middle pieces' stop) :
    Stands data start (pieces ++ pieces') stop := by
  induction first with
  | nil _ => exact second
  | literal inside _ ih => exact .literal inside (ih second)
  | copy repeats _ ih => exact .copy repeats (ih second)

theorem bounds (stands : Stands data start pieces stop) : start ≤ stop ∧ stop ≤ data.size := by
  induction stands with
  | nil inside => exact ⟨Nat.le_refl _, inside⟩
  | literal inside _ ih => exact ⟨by omega, ih.2⟩
  | copy repeats _ ih => exact ⟨by omega, ih.2⟩

theorem push_literal {pieces : Array Piece} (stands : Stands data start pieces.toList stop)
    (inside : stop < data.size) :
    Stands data start (pieces.push (.literal (data.getD stop 0))).toList (stop + 1) := by
  rw [Array.toList_push]
  exact stands.append (.literal inside (.nil inside))

theorem push_copy {pieces : Array Piece} {candidate : Candidate}
    (stands : Stands data start pieces.toList stop) (repeats : Repeats data stop candidate) :
    Stands data start
      (pieces.push (.copy candidate.length (stop - candidate.start))).toList
      (stop + candidate.length) := by
  rw [Array.toList_push]
  exact stands.append (.copy repeats (.nil repeats.inside))

end Stands

theorem push_extract {data : Bytes} {stop : Nat} (inside : stop < data.size) :
    (data.extract 0 stop).push (data.getD stop 0) = data.extract 0 (stop + 1) := by
  apply Array.toList_inj.mp
  simp [List.take_add_one, inside, Array.getD_eq_getD_getElem?]

/-- Copying back what was compared goes on with the data. -/
theorem copyBack_extract {data : Bytes} {distance : Nat} (positive : 0 < distance) (count : Nat)
    {stop : Nat} (near : distance ≤ stop) (inside : stop + count ≤ data.size)
    (same : ∀ i < count, data.getD (stop - distance + i) 0 = data.getD (stop + i) 0) :
    copyBack distance count (data.extract 0 stop) = data.extract 0 (stop + count) := by
  induction count generalizing stop with
  | zero => rfl
  | succ count ih =>
      have size : (data.extract 0 stop).size = stop := by
        rw [Array.size_extract]
        omega
      have first : (data.extract 0 stop).getD (stop - distance) 0 = data.getD stop 0 := by
        have here := same 0 (Nat.succ_pos count)
        rw [Nat.add_zero, Nat.add_zero] at here
        have within : stop - distance < min stop data.size - 0 := by omega
        rw [← here, Array.getD_eq_getD_getElem?, Array.getD_eq_getD_getElem?, Array.getElem?_extract,
          if_pos within, Nat.zero_add]
      rw [copyBack, size, first, push_extract (by omega), ih (by omega) (by omega),
        Nat.succ_add_eq_add_succ]
      intro i within
      have here := same (i + 1) (Nat.succ_lt_succ within)
      have left : stop - distance + (i + 1) = stop + 1 - distance + i := by omega
      have right : stop + (i + 1) = stop + 1 + i := by omega
      rwa [left, right] at here

/-! ### Candidates -/

theorem agreement_le (data : Bytes) (p q count : Nat) : agreement data p q count ≤ count := by
  induction count generalizing p q with
  | zero => exact Nat.le_refl 0
  | succ count ih =>
      rw [agreement]
      split
      · exact Nat.succ_le_succ (ih (p + 1) (q + 1))
      · exact Nat.zero_le _

theorem getD_of_lt_agreement {data : Bytes} {p q count i : Nat}
    (within : i < agreement data p q count) : data.getD (p + i) 0 = data.getD (q + i) 0 := by
  induction count generalizing p q i with
  | zero => cases within
  | succ count ih =>
      rw [agreement] at within
      split at within
      next same =>
        cases i with
        | zero => exact same
        | succ i =>
            have later := ih (Nat.lt_of_succ_lt_succ within)
            rwa [Nat.add_right_comm, Nat.add_right_comm q] at later
      · cases within

namespace Occurrences

/-- Every chain leads back, from positions before `position`. -/
structure LeadsBack (position : Nat) (o : Occurrences) : Prop where
  latest : ∀ hash, 0 < o.latest.getD hash 0 → o.latest.getD hash 0 < position
  earlier : ∀ p, 0 < o.earlier.getD p 0 → o.earlier.getD p 0 < p

theorem getD_replicate_zero (size i : Nat) : (Array.replicate size 0).getD i 0 = 0 := by
  rw [Array.getD_eq_getD_getElem?, Array.getElem?_replicate]
  split <;> rfl

/-- What holds of all entries and of a new one holds of all after it is set. -/
theorem forall_getD_setIfInBounds {P : Nat → Nat → Prop} {array : Array Nat}
    (all : ∀ j, P j (array.getD j 0)) {i value : Nat} (new : P i value) (j : Nat) :
    P j ((array.setIfInBounds i value).getD j 0) := by
  have old := all j
  rw [Array.getD_eq_getD_getElem?] at old ⊢
  rw [Array.getElem?_setIfInBounds]
  split
  next same =>
    subst same
    split
    · exact new
    next outside => rwa [Array.getElem?_eq_none (Nat.le_of_not_lt outside)] at old
  · exact old

variable {data : Bytes} {position : Nat} {o : Occurrences}

theorem LeadsBack.none (size : Nat) : LeadsBack 0 (.none size) where
  latest hash positive := by
    rw [Occurrences.none, getD_replicate_zero] at positive
    cases positive
  earlier p positive := by
    rw [Occurrences.none, getD_replicate_zero] at positive
    cases positive

theorem LeadsBack.later (back : LeadsBack position o) {position' : Nat} (le : position ≤ position') :
    LeadsBack position' o where
  latest hash positive := Nat.lt_of_lt_of_le (back.latest hash positive) le
  earlier := back.earlier

theorem LeadsBack.enter (back : LeadsBack position o) (data : Bytes) :
    (0 < (o.enter data position).1 → (o.enter data position).1 < position) ∧
      LeadsBack (position + 1) (o.enter data position).2 := by
  have next := back.later (Nat.le_succ position)
  obtain ⟨latest, earlier⟩ := o
  rw [Occurrences.enter]
  split
  · refine ⟨back.latest _, ?_, ?_⟩
    · exact forall_getD_setIfInBounds (P := fun _ value => 0 < value → value < position + 1)
        next.latest fun _ => Nat.lt_succ_self position
    · exact forall_getD_setIfInBounds (P := fun p value => 0 < value → value < p) back.earlier
        (back.latest _)
  · exact ⟨fun positive => absurd positive (Nat.lt_irrefl 0), next⟩

theorem LeadsBack.enterAll (back : LeadsBack position o) (data : Bytes) (count : Nat) :
    LeadsBack (position + count) (o.enterAll data count position) := by
  induction count generalizing position o with
  | zero => exact back
  | succ count ih =>
      rw [Nat.add_succ, ← Nat.succ_add]
      exact ih (back.enter data).2

end Occurrences

/-- A candidate for a copy at `position` whose bytes were compared. -/
structure Candidate.Compared (data : Bytes) (position reach : Nat) (c : Candidate) : Prop where
  earlier : c.start < position
  near : position - c.start ≤ farthest
  short : c.length ≤ reach
  same : ∀ i < c.length, data.getD (c.start + i) 0 = data.getD (position + i) 0

/-- Going down a chain either finds nothing better or a copy whose bytes were compared. -/
theorem longestFrom_compared (data : Bytes) {earlier : Array Nat} {position bound : Nat} (reach : Nat)
    (back : ∀ p, 0 < earlier.getD p 0 → earlier.getD p 0 < p) (far : position - farthest ≤ bound)
    (count : Nat) {start : Nat} (before : start < position) (near : position - start ≤ farthest)
    (best : Candidate) :
    longestFrom data earlier position reach bound count start best = best ∨
      (longestFrom data earlier position reach bound count start best).Compared data position
        reach := by
  induction count generalizing start best with
  | zero => exact .inl rfl
  | succ count ih =>
      simp only [longestFrom]
      generalize found : (if data.getD (start + best.length) 0 = data.getD (position + best.length) 0
        then agreement data start position reach else 0) = length
      have compared : 0 < length → (⟨length, start⟩ : Candidate).Compared data position reach := by
        intro positive
        split at found
        · subst found
          exact ⟨before, near, agreement_le _ _ _ _, fun i within => getD_of_lt_agreement within⟩
        · omega
      have better : (if best.length < length then (⟨length, start⟩ : Candidate) else best) = best ∨
          (if best.length < length then (⟨length, start⟩ : Candidate) else best).Compared data
            position reach := by
        split
        next longer => exact .inr (compared (Nat.lt_of_le_of_lt (Nat.zero_le _) longer))
        · exact .inl rfl
      generalize (if best.length < length then (⟨length, start⟩ : Candidate) else best) = best'
        at better ⊢
      split
      · exact better
      · split
        next inside =>
          have next := back start (Nat.lt_of_le_of_lt (Nat.zero_le _) inside)
          have near' : position - earlier.getD start 0 ≤ farthest := by omega
          obtain same | compared := ih (Nat.lt_trans next before) near' best'
          · rw [same]
            exact better
          · exact .inr compared
        · exact better

namespace Scan

variable {data : Bytes}

theorem search_compared (data : Bytes) {earlier : Array Nat} {window position head : Nat}
    (back : ∀ p, 0 < earlier.getD p 0 → earlier.getD p 0 < p) (before : 0 < head → head < position)
    (previous : Candidate) :
    search data earlier window position head previous = .none ∨
      search data earlier window position head previous = previous ∨
        (search data earlier window position head previous).Compared data position
          (min longestCopy (data.size - position)) := by
  simp only [search]
  generalize (if goodCopy ≤ previous.length then candidatesAfterGood else candidates) = count
  split
  next near =>
    split
    · exact .inl rfl
    · exact .inr (longestFrom_compared data _ back (Nat.le_max_right window _) count
        (before (Nat.lt_of_le_of_lt (Nat.zero_le _) near.1)) near.2.2 previous)
  · exact .inl rfl

/-- A copy that is longer than the one found before repeats earlier bytes. -/
theorem search_repeats {earlier : Array Nat} (window : Nat) {position head : Nat} (previous : Candidate)
    (back : ∀ p, 0 < earlier.getD p 0 → earlier.getD p 0 < p) (before : 0 < head → head < position)
    (inside : position ≤ data.size)
    (least : leastCopy ≤ (search data earlier window position head previous).length)
    (longer : previous.length < (search data earlier window position head previous).length) :
    Repeats data position (search data earlier window position head previous) := by
  obtain nothing | same | compared := search_compared data back before previous
  · rw [nothing] at least
    exact absurd least (by decide)
  · rw [same] at longer
    exact absurd longer (Nat.lt_irrefl _)
  · obtain ⟨most, within⟩ := Nat.le_min.mp compared.short
    exact ⟨least, most, compared.earlier, compared.near, by omega, compared.same⟩

end Scan

/-! ### Blocks -/

/-- Blocks that stand for the bytes from one position up to another. -/
inductive Covers (data : Bytes) : Nat → List Block → Nat → Prop where
  | nil {start : Nat} : Covers data start [] start
  | cons {stop : Nat} {block : Block} {blocks : List Block}
      (stands : Stands data block.start block.pieces.toList block.stop)
      (few : block.pieces.size ≤ blockPieces) (rest : Covers data block.stop blocks stop) :
      Covers data block.start (block :: blocks) stop

theorem Covers.eq_of_nil {data : Bytes} {start stop : Nat} (covers : Covers data start [] stop) :
    stop = start := by
  cases covers
  rfl

theorem Covers.push {data : Bytes} {start : Nat} {blocks : Array Block} (block : Block)
    (covers : Covers data start blocks.toList block.start)
    (stands : Stands data block.start block.pieces.toList block.stop)
    (few : block.pieces.size ≤ blockPieces) :
    Covers data start (blocks.push block).toList block.stop := by
  rw [Array.toList_push]
  generalize blocks.toList = earlier at covers
  generalize first : block.start = middle at covers
  induction covers with
  | nil =>
      subst first
      exact .cons stands few .nil
  | cons stands' few' _ ih => exact .cons stands' few' (ih first)

namespace Scan

/-- The pieces of a scan and its blocks stand for all bytes up to `stop`. -/
structure Written (data : Bytes) (stop : Nat) (s : Scan) : Prop where
  blocks : Covers data 0 s.blocks.toList s.blockStart
  pieces : Stands data s.blockStart s.pieces.toList stop
  few : s.pieces.size < blockPieces

/-- Ending a block changes nothing else, and leaves room for a piece. -/
theorem closeIfFull_spec (s : Scan) (blocks : Covers data 0 s.blocks.toList s.blockStart)
    (pieces : Stands data s.blockStart s.pieces.toList s.position)
    (few : s.pieces.size ≤ blockPieces) :
    ∃ pieces blockStart blocks, s.closeIfFull = { s with pieces, blockStart, blocks } ∧
      Written data s.position { s with pieces, blockStart, blocks } := by
  rw [closeIfFull]
  split
  · exact ⟨_, _, _, rfl, .push ⟨s.pieces, s.blockStart, s.position, s.window ≤ s.blockStart⟩ blocks
      pieces few, .nil pieces.bounds.2, Nat.zero_lt_succ _⟩
  next notFull => exact ⟨_, _, _, rfl, blocks, pieces, Nat.lt_of_le_of_ne few notFull⟩

/-- The invariant of a scan. The byte before the current one may be put off, and then a copy may have
been found there. -/
structure Sound (data : Bytes) (s : Scan) : Prop where
  inside : s.position ≤ data.size
  back : s.seen.LeadsBack s.position
  put : s.putOff = true → 0 < s.position
  found : leastCopy ≤ s.previous.length → s.putOff = true ∧ Repeats data (s.position - 1) s.previous
  written : Written data (if s.putOff then s.position - 1 else s.position) s

theorem Sound.start (data : Bytes) : Sound data (start data) where
  inside := Nat.zero_le _
  back := .none data.size
  put put := absurd put Bool.false_ne_true
  found least := absurd least (by decide : ¬leastCopy ≤ Candidate.none.length)
  written := ⟨.nil, .nil (Nat.zero_le _), Nat.zero_lt_succ _⟩

section
variable {position window window' : Nat} {seen seen' : Occurrences} {previous found : Candidate}
  {pieces : Array Piece} {blockStart : Nat} {blocks : Array Block}

/-- The copy found one byte earlier is written, and the bytes it covers are entered. -/
theorem Sound.copy
    (sound : Sound data ⟨position, window, seen, previous, true, pieces, blockStart, blocks⟩)
    (copied : Repeats data (position - 1) previous) (back : seen'.LeadsBack (position + 1)) :
    Sound data (closeIfFull ⟨position + previous.length - 1, window',
      seen'.enterAll data (previous.length - 2) (position + 1), .none, false,
        pieces.push (.copy previous.length (position - 1 - previous.start)), blockStart, blocks⟩) ∧
      position < (closeIfFull ⟨position + previous.length - 1, window',
        seen'.enterAll data (previous.length - 2) (position + 1), .none, false,
          pieces.push (.copy previous.length (position - 1 - previous.start)), blockStart,
            blocks⟩).position := by
  have positive : 0 < position := sound.put rfl
  have least : 3 ≤ previous.length := copied.least
  have stop : position - 1 + previous.length = position + previous.length - 1 := by omega
  have entered : position + 1 + (previous.length - 2) = position + previous.length - 1 := by omega
  have inside := copied.inside
  have stands : Stands data blockStart pieces.toList (position - 1) := sound.written.pieces
  have pushed := stands.push_copy copied
  have after := back.enterAll data (previous.length - 2)
  rw [stop] at pushed inside
  rw [entered] at after
  obtain ⟨_, _, _, same, written⟩ := closeIfFull_spec ⟨position + previous.length - 1, window',
    seen'.enterAll data (previous.length - 2) (position + 1), .none, false,
      pieces.push (.copy previous.length (position - 1 - previous.start)), blockStart, blocks⟩
    sound.written.blocks pushed (Array.size_push _ ▸ sound.written.few)
  rw [same]
  refine ⟨⟨inside, after, fun put => absurd put Bool.false_ne_true, fun least => ?_, written⟩, ?_⟩
  · exact absurd least (by decide : ¬leastCopy ≤ Candidate.none.length)
  · change position < position + previous.length - 1
    omega

/-- The byte that was put off is written, and the current one is put off. -/
theorem Sound.literal
    (sound : Sound data ⟨position, window, seen, previous, true, pieces, blockStart, blocks⟩)
    (more : position < data.size) (back : seen'.LeadsBack (position + 1))
    (current : leastCopy ≤ found.length → Repeats data position found) :
    Sound data { closeIfFull ⟨position, window', seen', found, true,
      pieces.push (.literal (data.getD (position - 1) 0)), blockStart, blocks⟩ with
        position := position + 1 } := by
  have positive : 0 < position := sound.put rfl
  have stands : Stands data blockStart pieces.toList (position - 1) := sound.written.pieces
  have pushed := stands.push_literal (Nat.lt_of_le_of_lt (Nat.sub_le _ _) more)
  rw [Nat.sub_add_cancel positive] at pushed
  obtain ⟨_, _, _, same, written⟩ := closeIfFull_spec ⟨position, window', seen', found, true,
    pieces.push (.literal (data.getD (position - 1) 0)), blockStart, blocks⟩
    sound.written.blocks pushed (Array.size_push _ ▸ sound.written.few)
  rw [same]
  exact ⟨more, back, fun _ => Nat.succ_pos position, fun least => ⟨rfl, current least⟩,
    written.blocks, written.pieces, written.few⟩

end

theorem Sound.step {s : Scan} (sound : Sound data s) (more : s.position < data.size) :
    Sound data (s.step data) ∧ s.position < (s.step data).position := by
  obtain ⟨position, window, seen, previous, putOff, pieces, blockStart, blocks⟩ := s
  have entered := sound.back.enter data
  simp only [Scan.step]
  generalize windowAt data window position = window'
  generalize seen.enter data position = entry at entered ⊢
  obtain ⟨head, seen'⟩ := entry
  have repeats := search_repeats window' previous entered.2.earlier entered.1 sound.inside
  dsimp only at entered repeats ⊢
  generalize search data seen'.earlier window' position head previous = found at repeats ⊢
  split
  next take =>
    obtain ⟨put, copied⟩ := sound.found take.1
    cases put
    exact sound.copy copied entered.2
  next keep =>
    have current (least : leastCopy ≤ found.length) : Repeats data position found :=
      repeats least (Nat.lt_of_not_le fun shorter => keep ⟨Nat.le_trans least shorter, shorter⟩)
    split
    next put =>
      cases put
      exact ⟨sound.literal more entered.2 current, Nat.lt_succ_self position⟩
    next clear =>
      have written := sound.written
      cases Bool.eq_false_iff.mpr clear
      exact ⟨⟨more, entered.2, fun _ => Nat.succ_pos position, fun least => ⟨rfl, current least⟩,
        written.blocks, written.pieces, written.few⟩, Nat.lt_succ_self position⟩

theorem Sound.run {s : Scan} (sound : Sound data s) (fuel : Nat)
    (enough : data.size ≤ s.position + fuel) :
    Sound data (s.run data fuel) ∧ (s.run data fuel).position = data.size := by
  induction fuel generalizing s with
  | zero => exact ⟨sound, Nat.le_antisymm sound.inside enough⟩
  | succ fuel ih =>
      rw [Scan.run]
      split
      next done => exact ⟨sound, Nat.le_antisymm sound.inside done⟩
      next more =>
        obtain ⟨next, moved⟩ := sound.step (Nat.lt_of_not_le more)
        exact ih next (by omega)

theorem Sound.finish {s : Scan} (sound : Sound data s) (done : s.position = data.size) :
    Covers data 0 (s.finish data).toList data.size := by
  obtain ⟨position, window, seen, previous, putOff, pieces, blockStart, blocks⟩ := s
  have written := sound.written
  rw [← done]
  cases putOff with
  | false =>
      exact .push ⟨pieces, blockStart, position, _⟩ written.blocks written.pieces
        (Nat.le_of_lt written.few)
  | true =>
      have positive : 0 < position := sound.put rfl
      have stands : Stands data blockStart pieces.toList (position - 1) := written.pieces
      have pushed := stands.push_literal (done ▸ Nat.sub_lt positive Nat.one_pos)
      rw [Nat.sub_add_cancel positive] at pushed
      refine .push ⟨pieces.push _, blockStart, position, _⟩ written.blocks pushed ?_
      exact Array.size_push _ ▸ written.few

end Scan

/-- The blocks of data stand for all of it. -/
theorem covers_blocksOf (data : Bytes) : Covers data 0 (blocksOf data).toList data.size := by
  obtain ⟨sound, done⟩ := (Scan.Sound.start data).run data.size (Nat.le_add_left _ _)
  exact sound.finish done

end TapeChain.Packing
