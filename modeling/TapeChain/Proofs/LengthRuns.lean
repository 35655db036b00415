import TapeChain.Proofs.PieceCodes

/-! Codeword lengths in front of a block. Runs of equal lengths are written as repetitions; a run is
cut where it is longer than one repetition can say, and what is repeated is always the length that
was read last. -/
namespace TapeChain.Packing

/-- The two symbols for runs of zeros: the least run and the width of what is added to it. -/
def ZeroRun (symbol base width : Nat) : Prop :=
  symbol = 17 ∧ base = 3 ∧ width = 3 ∨ symbol = 18 ∧ base = 11 ∧ width = 7

theorem ZeroRun.positive {symbol base width : Nat} (run : ZeroRun symbol base width) : 0 < base := by
  obtain ⟨_, rfl, _⟩ | ⟨_, rfl, _⟩ := run <;> decide

/-- What symbols add to a list of lengths, the last length first. -/
inductive Spells : List Nat → List LengthSymbol → List Nat → Prop where
  | nil {before : List Nat} : Spells before [] before
  | length {before after : List Nat} {symbols : List LengthSymbol} {n : Nat} (short : n < 16)
      (rest : Spells (n :: before) symbols after) : Spells before (⟨n, 0, 0⟩ :: symbols) after
  | again {before after : List Nat} {symbols : List LengthSymbol} {n extra : Nat} (small : extra < 4)
      (rest : Spells (List.replicate (3 + extra) n ++ n :: before) symbols after) :
      Spells (n :: before) (⟨16, extra, 2⟩ :: symbols) after
  | zeros {before after : List Nat} {symbols : List LengthSymbol} {symbol base width extra : Nat}
      (run : ZeroRun symbol base width) (small : extra < Nat.pow 2 width)
      (rest : Spells (List.replicate (base + extra) 0 ++ before) symbols after) :
      Spells before (⟨symbol, extra, width⟩ :: symbols) after

namespace Spells
variable {before middle after : List Nat} {symbols symbols' : List LengthSymbol}

theorem append (first : Spells before symbols middle) (second : Spells middle symbols' after) :
    Spells before (symbols ++ symbols') after := by
  induction first with
  | nil => exact second
  | length short _ ih => exact .length short (ih second)
  | again small _ ih => exact .again small (ih second)
  | zeros run small _ ih => exact .zeros run small (ih second)

/-- Every symbol adds a length. -/
theorem length_le (spells : Spells before symbols after) :
    before.length + symbols.length ≤ after.length := by
  induction spells with
  | nil => exact Nat.le_refl _
  | length _ _ ih =>
      simp only [List.length_cons] at ih ⊢
      omega
  | again _ _ ih =>
      simp only [List.length_append, List.length_replicate, List.length_cons] at ih ⊢
      omega
  | zeros run _ _ ih =>
      have positive := run.positive
      simp only [List.length_append, List.length_replicate, List.length_cons] at ih ⊢
      omega

theorem replicate {n : Nat} (short : n < 16) (count : Nat) (before : List Nat) :
    Spells before (List.replicate count ⟨n, 0, 0⟩) (List.replicate count n ++ before) := by
  induction count generalizing before with
  | zero => exact .nil
  | succ count ih =>
      have rest := ih (n :: before)
      rw [← List.singleton_append, ← List.append_assoc, ← List.replicate_succ'] at rest
      rw [List.replicate_succ]
      exact .length short rest

/-- The symbols of one run spell the run. -/
theorem runSymbols {previous : Option Nat} {n count : Nat} (short : n < 16)
    (least : 1 ≤ count) (most : count ≤ runLimit previous n)
    (last : ∀ p, previous = some p → ∃ earlier, before = p :: earlier) :
    Spells before (runSymbols previous n count) (List.replicate count n ++ before) := by
  rw [runLimit] at most
  rw [Packing.runSymbols]
  split
  next zero =>
    subst zero
    rw [if_pos rfl] at most
    split
    · exact replicate short count before
    · split
      · obtain ⟨extra, rfl⟩ : ∃ extra, count = 3 + extra := ⟨count - 3, by omega⟩
        rw [Nat.add_sub_cancel_left]
        exact .zeros (.inl ⟨rfl, rfl, rfl⟩) (show extra < 8 by omega) .nil
      · obtain ⟨extra, rfl⟩ : ∃ extra, count = 11 + extra := ⟨count - 11, by omega⟩
        rw [Nat.add_sub_cancel_left]
        exact .zeros (.inr ⟨rfl, rfl, rfl⟩) (show extra < 128 by omega) .nil
  next used =>
    rw [if_neg used] at most
    split
    next same =>
      obtain ⟨earlier, rfl⟩ := last n same
      rw [if_pos same] at most
      split
      · exact replicate short count _
      · obtain ⟨extra, rfl⟩ : ∃ extra, count = 3 + extra := ⟨count - 3, by omega⟩
        rw [Nat.add_sub_cancel_left]
        exact .again (by omega) .nil
    next other =>
      rw [if_neg other] at most
      split
      · exact replicate short count _
      · obtain ⟨extra, rfl⟩ : ∃ extra, count = 4 + extra := ⟨count - 4, by omega⟩
        have longer : List.replicate (4 + extra) n ++ before =
            List.replicate (3 + extra) n ++ n :: before := by
          rw [Nat.succ_add, List.replicate_succ', List.append_assoc, List.singleton_append]
        rw [Nat.add_sub_cancel_left, longer]
        exact .length short (.again (by omega) .nil)

theorem one_le_runLimit (previous : Option Nat) (n : Nat) : 1 ≤ runLimit previous n := by
  rw [runLimit]
  split
  · decide
  · split <;> decide

theorem lengthSymbolsFrom {previous : Option Nat} {n count : Nat} {rest : List Nat}
    (short : ∀ length ∈ n :: rest, length < 16) (least : 1 ≤ count)
    (most : count ≤ runLimit previous n)
    (last : ∀ p, previous = some p → ∃ earlier, before = p :: earlier) :
    Spells before (lengthSymbolsFrom previous n count rest)
      (rest.reverse ++ (List.replicate count n ++ before)) := by
  induction rest generalizing previous n count before with
  | nil => exact runSymbols (short n List.mem_cons_self) least most last
  | cons next rest ih =>
      have later : ∀ length ∈ next :: rest, length < 16 := fun length member =>
        short length (List.mem_cons_of_mem _ member)
      rw [Packing.lengthSymbolsFrom, List.reverse_cons, List.append_assoc, List.singleton_append]
      split
      next more =>
        obtain ⟨rfl, less⟩ := more
        exact ih later (Nat.le_succ_of_le least) less last
      next ends =>
        obtain ⟨count, rfl⟩ : ∃ less, count = less + 1 := ⟨count - 1, by omega⟩
        have run := runSymbols (short n List.mem_cons_self) least most last
        have others : Spells (List.replicate (count + 1) n ++ before)
            (Packing.lengthSymbolsFrom (some n) next 1 rest)
            (rest.reverse ++ next :: (List.replicate (count + 1) n ++ before)) :=
          ih later (Nat.le_refl 1) (one_le_runLimit _ _) fun p same => by
            cases same
            exact ⟨_, rfl⟩
        exact run.append others

/-- The symbols of a list of lengths spell that list. -/
theorem lengthSymbols {lengths : List Nat} (short : ∀ length ∈ lengths, length < 16)
    (before : List Nat) : Spells before (lengthSymbols lengths) (lengths.reverse ++ before) := by
  cases lengths with
  | nil => exact .nil
  | cons n rest =>
      rw [List.reverse_cons, List.append_assoc]
      exact lengthSymbolsFrom short (Nat.le_refl 1) (one_le_runLimit _ _) fun p same => by cases same

end Spells

/-! ### Reading lengths -/

/-- The bits of a symbol of the code for lengths. -/
def symbolBits (lengths : List Nat) (s : LengthSymbol) : List Nat :=
  rangeBits lengths s.symbol s.extra s.width

section Reading
variable {code : PrefixCode} {packed : Bytes} {total fuel position position' : Nat}
  {lengths : List Nat}

theorem readLengths_length (more : lengths.length < total) {n : Nat} (short : n < 16)
    (decoded : code.decode packed position = .ok (some n, position')) :
    readLengths code packed total (fuel + 1) position lengths =
      readLengths code packed total fuel position' (n :: lengths) := by
  rw [readLengths, if_neg (Nat.not_le.mpr more)]
  simp only [decoded, bind, Except.bind, Option.getD_some, if_pos short]

theorem readLengths_again {n extra : Nat} {earlier : List Nat}
    (room : (n :: earlier).length + (3 + extra) ≤ total)
    (decoded : code.decode packed position = .ok (some 16, position'))
    (times : bitsAt packed position' 2 = .ok extra) :
    readLengths code packed total (fuel + 1) position (n :: earlier) =
      readLengths code packed total fuel (position' + 2)
        (List.replicate (3 + extra) n ++ n :: earlier) := by
  rw [readLengths, if_neg (by omega)]
  simp only [decoded, bind, Except.bind, Option.getD_some, Nat.lt_irrefl, if_false, if_true, times,
    if_neg (Nat.not_lt.mpr room), List.headD_cons]

theorem readLengths_zeros {symbol base width extra : Nat}
    (run : ZeroRun symbol base width) (more : lengths.length < total)
    (room : lengths.length + (base + extra) ≤ total)
    (decoded : code.decode packed position = .ok (some symbol, position'))
    (times : bitsAt packed position' width = .ok extra) :
    readLengths code packed total (fuel + 1) position lengths =
      readLengths code packed total fuel (position' + width)
        (List.replicate (base + extra) 0 ++ lengths) := by
  rw [readLengths, if_neg (Nat.not_le.mpr more)]
  obtain ⟨rfl, rfl, rfl⟩ | ⟨rfl, rfl, rfl⟩ := run <;>
    simp only [decoded, bind, Except.bind, Option.getD_some, Nat.reduceLT, Nat.reduceEqDiff, if_false,
      if_true, times, if_neg (Nat.not_lt.mpr room)]

end Reading

theorem readLengths_done {code : PrefixCode} {packed : Bytes} {fuel position : Nat}
    (lengths : List Nat) :
    readLengths code packed lengths.length (fuel + 1) position lengths =
      .ok (lengths.reverse, position) := by
  rw [readLengths, if_pos (Nat.le_refl _)]

/-- A symbol is read, then its extra value, and then the other symbols lie ahead. -/
theorem decode_symbol {longest : Nat} {lengths : List Nat} (complete : Complete longest lengths)
    {s : LengthSymbol} {symbols : List LengthSymbol} (used : 0 < lengths.getD s.symbol 0)
    (small : s.extra < Nat.pow 2 s.width) {packed : Bytes} {position : Nat}
    (ahead : Ahead packed position ((s :: symbols).flatMap (symbolBits lengths))) :
    ∃ position', (PrefixCode.ofLengths lengths).decode packed position =
        .ok (some s.symbol, position') ∧ bitsAt packed position' s.width = .ok s.extra ∧
      Ahead packed (position' + s.width) (symbols.flatMap (symbolBits lengths)) ∧
        position' + s.width + (symbols.flatMap (symbolBits lengths)).length =
          position + ((s :: symbols).flatMap (symbolBits lengths)).length := by
  rw [List.flatMap_cons, symbolBits, rangeBits] at ahead ⊢
  have rest := ahead.right
  rw [List.length_append, length_lowBits, ← Nat.add_assoc] at rest
  refine ⟨_, complete.decode used ahead.left.left, ahead.left.right.bitsAt small, rest, ?_⟩
  rw [List.length_append, List.length_append, length_lowBits]
  omega

/-- The bits of symbols that spell lengths are read as those lengths. -/
theorem readLengths_spells {longest : Nat} {lengths : List Nat} (complete : Complete longest lengths)
    {before after : List Nat} {symbols : List LengthSymbol} (spells : Spells before symbols after)
    (used : ∀ s ∈ symbols, 0 < lengths.getD s.symbol 0) {packed : Bytes} {fuel position : Nat}
    (enough : symbols.length < fuel)
    (ahead : Ahead packed position (symbols.flatMap (symbolBits lengths))) :
    readLengths (.ofLengths lengths) packed after.length fuel position before =
      .ok (after.reverse, position + (symbols.flatMap (symbolBits lengths)).length) := by
  obtain ⟨fuel, rfl⟩ : ∃ more, fuel = more + 1 := ⟨fuel - 1, by omega⟩
  -- Every symbol of `spells` adds lengths, so there is room for them as long as one is left.
  induction spells generalizing fuel position with
  | nil => exact readLengths_done _
  | length short rest ih =>
      have room := rest.length_le
      obtain ⟨fuel, rfl⟩ : ∃ more, fuel = more + 1 := ⟨fuel - 1, by simp at enough; omega⟩
      obtain ⟨position', decoded, _, later, spent⟩ :=
        decode_symbol complete (used _ List.mem_cons_self) Nat.one_pos ahead
      rw [List.length_cons] at room
      rw [readLengths_length (by omega) short decoded, ← spent]
      exact ih (fun s member => used s (List.mem_cons_of_mem _ member)) later fuel
        (Nat.lt_of_succ_lt_succ enough)
  | again small rest ih =>
      have room := rest.length_le
      obtain ⟨fuel, rfl⟩ : ∃ more, fuel = more + 1 := ⟨fuel - 1, by simp at enough; omega⟩
      obtain ⟨position', decoded, times, later, spent⟩ :=
        decode_symbol complete (used _ List.mem_cons_self) small ahead
      dsimp only at decoded times later spent
      rw [List.length_append, List.length_replicate] at room
      rw [readLengths_again (by omega) decoded times, ← spent]
      exact ih (fun s member => used s (List.mem_cons_of_mem _ member)) later fuel
        (Nat.lt_of_succ_lt_succ enough)
  | zeros run small rest ih =>
      have room := rest.length_le
      obtain ⟨fuel, rfl⟩ : ∃ more, fuel = more + 1 := ⟨fuel - 1, by simp at enough; omega⟩
      obtain ⟨position', decoded, times, later, spent⟩ :=
        decode_symbol complete (used _ List.mem_cons_self) small ahead
      dsimp only at decoded times later spent
      have positive := run.positive
      rw [List.length_append, List.length_replicate] at room
      rw [readLengths_zeros run (by omega) (by omega) decoded times, ← spent]
      exact ih (fun s member => used s (List.mem_cons_of_mem _ member)) later fuel
        (Nat.lt_of_succ_lt_succ enough)

end TapeChain.Packing
