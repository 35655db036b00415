import TapeChain.Proofs.Bitstream

/-! Canonical codes. The codewords of one width follow each other, and those of the next width go on
where they end, with a zero appended. So the first codeword of a width, and with it every codeword,
is known from how many words the shorter codewords cover: a writer that lists all codewords and a
reader that counts its way through the widths agree on them. -/
namespace TapeChain.Packing

/-- How many of the words of `width` bits begin with a codeword. -/
def covered (lengths : List Nat) : Nat → Nat
  | 0 => 0
  | width + 1 => 2 * covered lengths width + lengths.count (width + 1)

/-- The symbols whose codewords have a width, in order. -/
def symbolsOf (lengths : List Nat) (width : Nat) : List Nat :=
  (lengths.zipIdx.filter fun p => p.1 = width).map fun p => p.2

/-- The codeword of a symbol as a number. -/
def codeOf (lengths : List Nat) (symbol : Nat) : Nat :=
  2 * covered lengths (lengths.getD symbol 0 - 1) +
    (lengths.take symbol).count (lengths.getD symbol 0)

/-- The lowest `width` bits of a number, the highest first. -/
def highBits (value : Nat) : Nat → List Nat
  | 0 => []
  | width + 1 => value / Nat.pow 2 width % 2 :: highBits value width

/-- The bits of a codeword, in the order of the stream. -/
def codeword (lengths : List Nat) (symbol : Nat) : List Nat :=
  highBits (codeOf lengths symbol) (lengths.getD symbol 0)

@[simp] theorem length_highBits (value width : Nat) : (highBits value width).length = width := by
  induction width with
  | zero => rfl
  | succ width ih => rw [highBits, List.length_cons, ih]

@[simp] theorem length_codeword (lengths : List Nat) (symbol : Nat) :
    (codeword lengths symbol).length = lengths.getD symbol 0 := length_highBits _ _

/-! ### Reversed bits -/

theorem reverseBits_lt (value width : Nat) : reverseBits value width < Nat.pow 2 width := by
  induction width generalizing value with
  | zero => exact Nat.one_pos
  | succ width ih =>
      have rest := ih (value / 2)
      have double : Nat.pow 2 (width + 1) = Nat.pow 2 width * 2 := rfl
      rw [reverseBits, double]
      obtain even | odd := Nat.mod_two_eq_zero_or_one value
      · rw [even, Nat.zero_mul]
        omega
      · rw [odd, Nat.one_mul]
        omega

theorem highBits_succ (value width : Nat) :
    highBits value (width + 1) = highBits (value / 2) width ++ [value % 2] := by
  induction width with
  | zero => simp [highBits]
  | succ width ih =>
      have half : value / Nat.pow 2 (width + 1) = value / 2 / Nat.pow 2 width := by
        rw [Nat.div_div_eq_div_mul, Nat.mul_comm]
        rfl
      rw [highBits, ih, half]
      rfl

theorem lowBits_reverseBits (value width : Nat) :
    lowBits (reverseBits value width) width = highBits value width := by
  induction width generalizing value with
  | zero => rfl
  | succ width ih =>
      have top : (reverseBits (value / 2) width + value % 2 * Nat.pow 2 width) / Nat.pow 2 width =
          value % 2 := by
        have positive : 0 < Nat.pow 2 width := Nat.two_pow_pos width
        rw [Nat.add_mul_div_right _ _ positive, Nat.div_eq_of_lt (reverseBits_lt _ _), Nat.zero_add]
      have single : lowBits (value % 2) 1 = [value % 2] := by
        rw [lowBits, Nat.mod_mod]
        rfl
      rw [reverseBits, Nat.add_comm, lowBits_add, lowBits_add_mul, top, single, ih, highBits_succ]

/-! ### Symbols of one width -/

theorem length_symbolsOf (lengths : List Nat) (width : Nat) :
    (symbolsOf lengths width).length = lengths.count width := by
  have shifted (start : Nat) : ((lengths.zipIdx start).filter fun p => p.1 = width).length =
      lengths.count width := by
    induction lengths generalizing start with
    | nil => rfl
    | cons length lengths ih =>
        by_cases same : length = width <;>
          simp [List.zipIdx_cons, same, ih (start + 1)]
  rw [symbolsOf, List.length_map, shifted 0]

theorem mem_symbolsOf {lengths : List Nat} {width symbol : Nat} :
    symbol ∈ symbolsOf lengths width ↔ lengths[symbol]? = some width := by
  simp [symbolsOf, List.mem_zipIdx_iff_getElem?]

theorem nodup_places (list : List Nat) (keep : Nat × Nat → Bool) :
    ((list.zipIdx.filter keep).map fun p => p.2).Nodup := by
  refine (List.filter_sublist.map _).nodup ?_
  have range : (list.zipIdx.map fun p => p.2) = List.range' 0 list.length := List.zipIdx_map_snd 0 list
  rw [range]
  exact List.nodup_range'

theorem nodup_symbolsOf (lengths : List Nat) (width : Nat) : (symbolsOf lengths width).Nodup :=
  nodup_places lengths _

/-- A symbol stands behind the earlier symbols of its width. -/
theorem getElem?_symbolsOf {lengths : List Nat} {width symbol : Nat}
    (found : lengths[symbol]? = some width) :
    (symbolsOf lengths width)[(lengths.take symbol).count width]? = some symbol := by
  have shifted (start : Nat) :
      (((lengths.zipIdx start).filter fun p => p.1 = width).map fun p =>
        p.2)[(lengths.take symbol).count width]? = some (start + symbol) := by
    induction lengths generalizing start symbol with
    | nil => cases found
    | cons length lengths ih =>
        cases symbol with
        | zero =>
            have same : length = width := Option.some.inj found
            simp [List.zipIdx_cons, same]
        | succ symbol =>
            have found' : lengths[symbol]? = some width := found
            have rest := ih found' (start + 1)
            have next : start + 1 + symbol = start + (symbol + 1) := by omega
            rw [next] at rest
            by_cases same : length = width <;>
              simpa [List.zipIdx_cons, List.filter_cons, List.take_succ_cons, same] using rest
  have here := shifted 0
  rwa [Nat.zero_add] at here

theorem count_take_lt {lengths : List Nat} {width symbol : Nat}
    (found : lengths[symbol]? = some width) :
    (lengths.take symbol).count width < lengths.count width := by
  have inside := (List.getElem?_eq_some_iff.mp (getElem?_symbolsOf found)).1
  rwa [length_symbolsOf] at inside

/-! ### The writer's codewords -/

theorem size_assign (width : Nat) (symbols : List Nat) (code : Nat) (words : Array (Nat × Nat)) :
    (assign width symbols code words).size = words.size := by
  induction symbols generalizing code words with
  | nil => rfl
  | cons symbol symbols ih => rw [assign, ih, Array.size_setIfInBounds]

theorem getElem?_assign_of_not_mem {width symbol : Nat} {symbols : List Nat}
    (other : symbol ∉ symbols) (code : Nat) (words : Array (Nat × Nat)) :
    (assign width symbols code words)[symbol]? = words[symbol]? := by
  induction symbols generalizing code words with
  | nil => rfl
  | cons first symbols ih =>
      rw [List.mem_cons, not_or] at other
      rw [assign, ih other.2, Array.getElem?_setIfInBounds_ne (Ne.symm other.1)]

theorem getElem?_assign {width symbol place : Nat} {symbols : List Nat} (distinct : symbols.Nodup)
    (found : symbols[place]? = some symbol) (code : Nat) {words : Array (Nat × Nat)}
    (inside : symbol < words.size) :
    (assign width symbols code words)[symbol]? = some (reverseBits (code + place) width, width) := by
  induction symbols generalizing code words place with
  | nil => cases found
  | cons first symbols ih =>
      rw [List.nodup_cons] at distinct
      rw [assign]
      cases place with
      | zero =>
          cases Option.some.inj found
          rw [getElem?_assign_of_not_mem distinct.1, Array.getElem?_setIfInBounds_self_of_lt inside,
            Nat.add_zero]
      | succ place =>
          rw [ih distinct.2 found (code + 1) (by rwa [Array.size_setIfInBounds]), Nat.add_assoc,
            Nat.add_comm 1]

theorem getElem?_assignAll {lengths : List Nat} {symbol width : Nat}
    (found : lengths[symbol]? = some width) (count : Nat) {start : Nat} {words : Array (Nat × Nat)}
    (inside : symbol < words.size) (above : start < width) (below : width ≤ start + count) :
    (assignAll ((List.range' start count).map fun i => (i + 1, symbolsOf lengths (i + 1)))
      (2 * covered lengths start) words)[symbol]? =
        some (reverseBits (codeOf lengths symbol) width, width) := by
  -- The classes before that of `symbol` leave its entry alone, and so do those behind it.
  have untouched (count : Nat) {start : Nat} {code : Nat} {words : Array (Nat × Nat)}
      (past : width ≤ start) :
      (assignAll ((List.range' start count).map fun i => (i + 1, symbolsOf lengths (i + 1))) code
        words)[symbol]? = words[symbol]? := by
    induction count generalizing start code words with
    | zero => rfl
    | succ count ih =>
        have other : symbol ∉ symbolsOf lengths (start + 1) := by
          rw [mem_symbolsOf, found, Option.some.injEq]
          omega
        rw [List.range'_succ, List.map_cons, assignAll, ih (by omega),
          getElem?_assign_of_not_mem other]
  induction count generalizing start words with
  | zero => omega
  | succ count ih =>
      have next : 2 * (2 * covered lengths start + (symbolsOf lengths (start + 1)).length) =
          2 * covered lengths (start + 1) := by
        rw [length_symbolsOf]
        rfl
      rw [List.range'_succ, List.map_cons, assignAll, next]
      by_cases here : width = start + 1
      · rw [untouched count (Nat.le_of_eq here), ← here,
          getElem?_assign (nodup_symbolsOf lengths width) (getElem?_symbolsOf found) _ inside, codeOf,
          List.getD_eq_getElem?_getD, found, Option.getD_some, here, Nat.add_sub_cancel]
      · exact ih (by rwa [size_assign]) (by omega) (by omega)

theorem codewords_getD {lengths : List Nat} {symbol : Nat} (used : 0 < lengths.getD symbol 0)
    (short : lengths.getD symbol 0 ≤ longestCode) :
    (codewords lengths).getD symbol (0, 0) =
      (reverseBits (codeOf lengths symbol) (lengths.getD symbol 0), lengths.getD symbol 0) := by
  cases found : lengths[symbol]? with
  | none => simp [found] at used
  | some width =>
      have value : lengths.getD symbol 0 = width := by
        rw [List.getD_eq_getElem?_getD, found, Option.getD_some]
      rw [value] at used short ⊢
      have inside : symbol < (Array.replicate lengths.length ((0, 0) : Nat × Nat)).size := by
        rw [Array.size_replicate]
        exact (List.getElem?_eq_some_iff.mp found).1
      have word := getElem?_assignAll found longestCode inside used (by omega)
      rw [← List.range_eq_range'] at word
      rw [Array.getD_eq_getD_getElem?]
      exact congrArg (Option.getD · (0, 0)) word

/-- Putting the codeword of a symbol appends its bits. -/
theorem emits_codeword {lengths : List Nat} {symbol : Nat} (used : 0 < lengths.getD symbol 0)
    (short : lengths.getD symbol 0 ≤ longestCode) :
    BitWriter.Emits (fun w => w.put ((codewords lengths).getD symbol (0, 0)).1
      ((codewords lengths).getD symbol (0, 0)).2) (codeword lengths symbol) := by
  rw [codewords_getD used short, codeword, ← lowBits_reverseBits]
  exact BitWriter.emits_put (Nat.le_trans short (by decide)) (reverseBits_lt _ _)

/-! ### The reader's codewords -/

/-- The number of symbols with codewords of at most the given width. -/
def before (lengths : List Nat) : Nat → Nat
  | 0 => 0
  | width + 1 => before lengths width + lengths.count (width + 1)

theorem covered_mul_le (lengths : List Nat) (width more : Nat) :
    covered lengths width * Nat.pow 2 more ≤ covered lengths (width + more) := by
  induction more with
  | zero => exact Nat.le_of_eq (Nat.mul_one _)
  | succ more ih =>
      rw [mul_pow_succ, ← Nat.add_assoc, covered]
      omega

/-- The bits of a code read so far, with the next one. -/
theorem div_pow_bit (code rest : Nat) :
    2 * (code / Nat.pow 2 (rest + 1)) + code / Nat.pow 2 rest % 2 = code / Nat.pow 2 rest := by
  have half : code / Nat.pow 2 (rest + 1) = code / Nat.pow 2 rest / 2 :=
    (Nat.div_div_eq_div_mul code (Nat.pow 2 rest) 2).symm
  rw [half]
  omega

/-- A code of a greater length does not begin with a word of a smaller one. -/
theorem covered_le_div {lengths : List Nat} {width rest code : Nat}
    (least : 2 * covered lengths (width + (rest + 1) - 1) ≤ code) :
    covered lengths width ≤ code / Nat.pow 2 (rest + 1) := by
  have positive : 0 < Nat.pow 2 (rest + 1) := Nat.two_pow_pos _
  have grown := covered_mul_le lengths width rest
  have last : width + (rest + 1) - 1 = width + rest := by omega
  rw [last] at least
  rw [Nat.le_div_iff_mul_le positive, mul_pow_succ]
  omega

/-- As long as fewer bits are read than the codeword has, what is read is no codeword. -/
theorem decodeFrom_codeword {lengths : List Nat} {data : Bytes} (symbols : Array Nat)
    {width code : Nat} (least : 2 * covered lengths (width - 1) ≤ code)
    (most : code < covered lengths width) (count start : Nat) {position : Nat}
    (above : start < width) (below : width ≤ start + count)
    (ahead : Ahead data position (highBits code (width - start))) :
    decodeFrom data symbols ((List.range' start count).map fun i => lengths.count (i + 1)) position
      (2 * (code / Nat.pow 2 (width - start))) (2 * covered lengths start) (before lengths start) =
        .ok (symbols[before lengths (width - 1) + (code - 2 * covered lengths (width - 1))]?,
          position + (width - start)) := by
  induction count generalizing start position with
  | zero => omega
  | succ count ih =>
      obtain ⟨rest, rfl⟩ : ∃ rest, width = start + 1 + rest := Nat.exists_eq_add_of_le above
      have left : start + 1 + rest - start = rest + 1 := by omega
      have here : start + 1 + rest - (start + 1) = rest := by omega
      rw [left, highBits] at ahead
      rw [left, List.range'_succ, List.map_cons, decodeFrom, ahead.bitAt?]
      simp only [div_pow_bit]
      have bound : 2 * covered lengths start + lengths.count (start + 1) =
          covered lengths (start + 1) := rfl
      cases rest with
      | zero =>
          have inside : code / Nat.pow 2 0 < covered lengths (start + 1) := by
            have whole : code / Nat.pow 2 0 = code := Nat.div_one code
            rw [whole]
            exact most
          rw [bound, if_pos inside]
          congr 3
          exact congrArg (fun n => before lengths start + (n - 2 * covered lengths start))
            (Nat.div_one code)
      | succ rest =>
          rw [bound, if_neg (Nat.not_lt.mpr (covered_le_div least))]
          have after := ih (start + 1) (by omega) (by omega) (by rw [here]; exact ahead.tail)
          rw [here] at after
          refine after.trans ?_
          congr 2
          omega

theorem le_foldl_max {lengths : List Nat} {length : Nat} (member : length ∈ lengths) (start : Nat) :
    length ≤ lengths.foldl max start := by
  have grows (lengths : List Nat) (start : Nat) : start ≤ lengths.foldl max start := by
    induction lengths generalizing start with
    | nil => exact Nat.le_refl start
    | cons length lengths ih => exact Nat.le_trans (Nat.le_max_left _ _) (ih _)
  induction lengths generalizing start with
  | nil => cases member
  | cons first lengths ih =>
      cases member with
      | head => exact Nat.le_trans (Nat.le_max_right _ _) (grows lengths _)
      | tail _ member => exact ih member _

theorem counts_ofLengths (lengths : List Nat) : (PrefixCode.ofLengths lengths).counts =
    (List.range' 0 (lengths.foldl max 0)).map fun i => lengths.count (i + 1) := by
  simp only [PrefixCode.ofLengths, List.map_map, ← List.range_eq_range']
  apply List.map_congr_left
  intro i _
  have same := length_symbolsOf lengths (i + 1)
  rwa [symbolsOf, List.length_map] at same

theorem length_flatMap_symbolsOf (lengths : List Nat) (width : Nat) :
    ((List.range width).flatMap fun i => symbolsOf lengths (i + 1)).length =
      before lengths width := by
  induction width with
  | zero => rfl
  | succ width ih =>
      rw [List.range_succ, List.flatMap_append, List.length_append, ih, List.flatMap_singleton,
        length_symbolsOf]
      rfl

theorem getElem?_symbols_ofLengths {lengths : List Nat} {symbol width : Nat}
    (found : lengths[symbol]? = some (width + 1)) :
    (PrefixCode.ofLengths lengths).symbols[before lengths width +
      (lengths.take symbol).count (width + 1)]? = some symbol := by
  have longest := le_foldl_max (List.mem_of_getElem? found) 0
  obtain ⟨more, most⟩ := Nat.exists_eq_add_of_le' longest
  have place := getElem?_symbolsOf found
  have inside := (List.getElem?_eq_some_iff.mp place).1
  have all : (PrefixCode.ofLengths lengths).symbols =
      ((List.range (width + (more + 1))).flatMap fun i => symbolsOf lengths (i + 1)).toArray := by
    have width_eq : lengths.foldl max 0 = width + (more + 1) := by omega
    simp only [PrefixCode.ofLengths, List.flatMap_map, width_eq]
    rfl
  rw [all, List.getElem?_toArray, List.range_add, List.flatMap_append,
    List.getElem?_append_right (by rw [length_flatMap_symbolsOf]; exact Nat.le_add_right _ _),
    length_flatMap_symbolsOf, Nat.add_sub_cancel_left, List.range_succ_eq_map, List.map_cons,
    List.flatMap_cons, Nat.add_zero, List.getElem?_append_left inside, place]

/-- A codeword that fits its width is read as its symbol. -/
theorem decode_codeword {lengths : List Nat} {symbol : Nat} (used : 0 < lengths.getD symbol 0)
    (fits : covered lengths (lengths.getD symbol 0) ≤ Nat.pow 2 (lengths.getD symbol 0))
    {data : Bytes} {position : Nat} (ahead : Ahead data position (codeword lengths symbol)) :
    (PrefixCode.ofLengths lengths).decode data position =
      .ok (some symbol, position + lengths.getD symbol 0) := by
  cases found : lengths[symbol]? with
  | none => simp [found] at used
  | some length =>
      have value : lengths.getD symbol 0 = length := by
        rw [List.getD_eq_getElem?_getD, found, Option.getD_some]
      rw [codeword] at ahead
      rw [value] at used fits ahead ⊢
      obtain ⟨width, rfl⟩ : ∃ width, length = width + 1 := ⟨length - 1, by omega⟩
      have code : codeOf lengths symbol =
          2 * covered lengths width + (lengths.take symbol).count (width + 1) := by
        rw [codeOf, value]
        rfl
      have most : codeOf lengths symbol < covered lengths (width + 1) := by
        have rank := count_take_lt found
        rw [code, covered]
        omega
      have longest := le_foldl_max (List.mem_of_getElem? found) 0
      have decoded := decodeFrom_codeword (PrefixCode.ofLengths lengths).symbols
        (by rw [code]; exact Nat.le_add_right _ _) most (lengths.foldl max 0) 0 used (by omega) ahead
      have start : codeOf lengths symbol / Nat.pow 2 (width + 1) = 0 :=
        Nat.div_eq_of_lt (Nat.lt_of_lt_of_le most fits)
      have nonempty : ((PrefixCode.ofLengths lengths).counts.isEmpty) = false := by
        obtain ⟨more, most⟩ := Nat.exists_eq_add_of_le' longest
        rw [counts_ofLengths, most]
        rfl
      rw [PrefixCode.decode, nonempty, counts_ofLengths]
      refine Eq.trans ?_ (decoded.trans ?_)
      · rw [Nat.sub_zero, start]
        rfl
      · rw [Nat.add_sub_cancel, code, Nat.add_sub_cancel_left, getElem?_symbols_ofLengths found]
        rfl

/-! ### Complete codes -/

theorem oversubscribed_eq_false {lengths : List Nat} (count start : Nat)
    (fits : ∀ width ≤ start + count, covered lengths width ≤ Nat.pow 2 width) :
    oversubscribed (Nat.pow 2 start - covered lengths start : Int)
      ((List.range' start count).map fun i => lengths.count (i + 1)) = false := by
  induction count generalizing start with
  | zero => rfl
  | succ count ih =>
      have next : (2 * (Nat.pow 2 start - covered lengths start : Int) - lengths.count (start + 1)) =
          (Nat.pow 2 (start + 1) - covered lengths (start + 1) : Int) := by
        have double : Nat.pow 2 (start + 1) = Nat.pow 2 start * 2 := rfl
        rw [double, covered]
        omega
      have here := fits (start + 1) (by omega)
      have rest := ih (start + 1) fun width bound => fits width (by omega)
      simp only [List.range'_succ, List.map_cons, oversubscribed, next, rest, Bool.or_false]
      rw [decide_eq_false_iff_not]
      omega

theorem foldl_spare (lengths : List Nat) (count : Nat) (start : Nat) :
    ((List.range' start count).map fun i => lengths.count (i + 1)).foldl
      (fun (left : Int) (count : Nat) => 2 * left - count)
      (Nat.pow 2 start - covered lengths start : Int) =
        (Nat.pow 2 (start + count) - covered lengths (start + count) : Int) := by
  induction count generalizing start with
  | zero => rfl
  | succ count ih =>
      have next : (2 * (Nat.pow 2 start - covered lengths start : Int) - lengths.count (start + 1)) =
          (Nat.pow 2 (start + 1) - covered lengths (start + 1) : Int) := by
        have double : Nat.pow 2 (start + 1) = Nat.pow 2 start * 2 := rfl
        rw [double, covered]
        omega
      rw [List.range'_succ, List.map_cons, List.foldl_cons, next, ih (start + 1),
        Nat.succ_add_eq_add_succ]

/-- Codeword lengths that use up all words of the greatest length allowed. -/
structure Complete (longest : Nat) (lengths : List Nat) : Prop where
  short : ∀ length ∈ lengths, length ≤ longest
  full : covered lengths longest = Nat.pow 2 longest

namespace Complete
variable {longest : Nat} {lengths : List Nat}

theorem fits (complete : Complete longest lengths) {width : Nat} (within : width ≤ longest) :
    covered lengths width ≤ Nat.pow 2 width := by
  obtain ⟨more, rfl⟩ := Nat.exists_eq_add_of_le within
  have grown := covered_mul_le lengths width more
  have product : Nat.pow 2 (width + more) = Nat.pow 2 width * Nat.pow 2 more := Nat.pow_add 2 width more
  have positive : 0 < Nat.pow 2 more := Nat.two_pow_pos more
  rw [complete.full, product] at grown
  exact Nat.le_of_mul_le_mul_right grown positive

theorem getD_le (complete : Complete longest lengths) (symbol : Nat) :
    lengths.getD symbol 0 ≤ longest := by
  rw [List.getD_eq_getElem?_getD]
  cases found : lengths[symbol]? with
  | none => exact Nat.zero_le longest
  | some length => exact complete.short length (List.mem_of_getElem? found)

theorem foldl_max_le (complete : Complete longest lengths) : lengths.foldl max 0 ≤ longest := by
  have bound (lengths : List Nat) (start : Nat) (first : start ≤ longest)
      (short : ∀ length ∈ lengths, length ≤ longest) : lengths.foldl max start ≤ longest := by
    induction lengths generalizing start with
    | nil => exact first
    | cons length lengths ih =>
        exact ih _ (Nat.max_le.mpr ⟨first, short length List.mem_cons_self⟩) fun other member =>
          short other (List.mem_cons_of_mem _ member)
  exact bound lengths 0 (Nat.zero_le longest) complete.short

/-- No words are left over at the greatest length in use either. -/
theorem covered_foldl_max (complete : Complete longest lengths) :
    covered lengths (lengths.foldl max 0) = Nat.pow 2 (lengths.foldl max 0) := by
  obtain ⟨more, most⟩ := Nat.exists_eq_add_of_le complete.foldl_max_le
  have beyond (more : Nat) : covered lengths (lengths.foldl max 0 + more) =
      covered lengths (lengths.foldl max 0) * Nat.pow 2 more := by
    induction more with
    | zero => exact (Nat.mul_one _).symm
    | succ more ih =>
        have unused : lengths.count (lengths.foldl max 0 + more + 1) = 0 := by
          rw [List.count_eq_zero]
          intro member
          have bound := le_foldl_max member 0
          omega
        rw [← Nat.add_assoc, covered, unused, ih, mul_pow_succ]
        rfl
  have full := complete.full
  have product : Nat.pow 2 (lengths.foldl max 0 + more) =
      Nat.pow 2 (lengths.foldl max 0) * Nat.pow 2 more := Nat.pow_add 2 _ more
  have positive : 0 < Nat.pow 2 more := Nat.two_pow_pos more
  rw [most, beyond more, product] at full
  exact Nat.eq_of_mul_eq_mul_right positive full

theorem wellFormed (complete : Complete longest lengths) (mayBeSparse : Bool) :
    (PrefixCode.ofLengths lengths).wellFormed mayBeSparse = true := by
  have fitting := oversubscribed_eq_false (lengths.foldl max 0) 0 fun width bound => by
    rw [Nat.zero_add] at bound
    exact complete.fits (Nat.le_trans bound complete.foldl_max_le)
  have spare : (PrefixCode.ofLengths lengths).spare = 0 := by
    have left := foldl_spare lengths (lengths.foldl max 0) 0
    rw [Nat.zero_add, complete.covered_foldl_max, Int.sub_self] at left
    rw [PrefixCode.spare, counts_ofLengths]
    exact left
  have fitting' : oversubscribed 1 (PrefixCode.ofLengths lengths).counts = false := by
    rw [counts_ofLengths]
    exact fitting
  rw [PrefixCode.wellFormed, spare, fitting']
  split <;> rfl

theorem decode (complete : Complete longest lengths) {symbol : Nat}
    (used : 0 < lengths.getD symbol 0) {data : Bytes} {position : Nat}
    (ahead : Ahead data position (codeword lengths symbol)) :
    (PrefixCode.ofLengths lengths).decode data position =
      .ok (some symbol, position + (codeword lengths symbol).length) := by
  rw [length_codeword]
  exact decode_codeword used (complete.fits (complete.getD_le symbol)) ahead

theorem emits (complete : Complete longest lengths) (allowed : longest ≤ longestCode) {symbol : Nat}
    (used : 0 < lengths.getD symbol 0) :
    BitWriter.Emits (fun w => w.put ((codewords lengths).getD symbol (0, 0)).1
      ((codewords lengths).getD symbol (0, 0)).2) (codeword lengths symbol) :=
  emits_codeword used (Nat.le_trans (complete.getD_le symbol) allowed)

end Complete

end TapeChain.Packing
