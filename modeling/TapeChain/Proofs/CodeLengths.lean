import TapeChain.Proofs.CanonicalCode
import TapeChain.Proofs.Forest

/-! The lengths that weights give rise to make a complete code. A tree without cut nodes has just room
for its leaves. If nodes were cut, the leaves take up half as many words too much as there were cut
nodes; each time one codeword is lengthened to make room for another, that is one word less. -/
namespace TapeChain.Packing

/-! ### Adding up words -/

theorem covered_nil (width : Nat) : covered [] width = 0 := by
  induction width with
  | zero => rfl
  | succ width ih => rw [covered, ih, List.count_nil]

theorem covered_cons (length : Nat) (lengths : List Nat) (width : Nat) :
    covered (length :: lengths) width = covered [length] width + covered lengths width := by
  induction width with
  | zero => rfl
  | succ width ih =>
      rw [covered, covered, covered, ih, List.count_cons, List.count_cons, List.count_nil]
      omega

theorem covered_zero_cons (lengths : List Nat) (width : Nat) :
    covered (0 :: lengths) width = covered lengths width := by
  have unused : covered [0] width = 0 := by
    induction width with
    | zero => rfl
    | succ width ih => simp [covered, ih]
  rw [covered_cons, unused, Nat.zero_add]

theorem covered_singleton (length more : Nat) :
    covered [length + 1] (length + 1 + more) = Nat.pow 2 more := by
  have shorter (width : Nat) (less : width < length + 1) : covered [length + 1] width = 0 := by
    induction width with
    | zero => rfl
    | succ width ih =>
        have other : length + 1 ≠ width + 1 := by omega
        rw [covered, ih (by omega), List.count_singleton, beq_eq_false_iff_ne.mpr other]
        rfl
  induction more with
  | zero =>
      rw [Nat.add_zero, covered, shorter length (Nat.lt_succ_self length), List.count_singleton_self]
  | succ more ih =>
      have other : length + 1 ≠ length + 1 + more + 1 := by omega
      rw [← Nat.add_assoc, covered, ih, List.count_singleton, beq_eq_false_iff_ne.mpr other]
      exact Nat.mul_comm 2 _

/-- The words covered are those that the codewords have room for. -/
theorem covered_eq_total {longest : Nat} {lengths : List Nat}
    (range : ∀ length ∈ lengths, 1 ≤ length ∧ length ≤ longest) :
    covered lengths longest = total (Forest.roomAt longest) lengths := by
  induction lengths with
  | nil => exact covered_nil longest
  | cons length lengths ih =>
      obtain ⟨least, most⟩ := range length List.mem_cons_self
      obtain ⟨less, rfl⟩ : ∃ less, length = less + 1 := ⟨length - 1, by omega⟩
      obtain ⟨more, rfl⟩ := Nat.exists_eq_add_of_le most
      rw [covered_cons, covered_singleton, total, Forest.roomAt, Nat.add_sub_cancel_left,
        ih fun other member => range other (List.mem_cons_of_mem _ member)]

theorem covered_set {lengths : List Nat} {symbol : Nat} (unused : lengths[symbol]? = some 0)
    (length width : Nat) :
    covered (lengths.set symbol length) width = covered [length] width + covered lengths width := by
  induction lengths generalizing symbol with
  | nil => cases unused
  | cons first lengths ih =>
      cases symbol with
      | zero =>
          cases Option.some.inj unused
          rw [List.set_cons_zero, covered_cons, covered_zero_cons]
      | succ symbol =>
          rw [List.set_cons_succ, covered_cons, covered_cons first lengths, ih unused]
          exact Nat.add_left_comm _ _ _

/-! ### Lengths for symbols -/

section Spread
variable {symbols lengths : List Nat} {out : Array Nat}

theorem getElem?_spread_of_not_mem {symbol : Nat} (other : symbol ∉ symbols) :
    ((symbols.zip lengths).foldl (fun out p => out.setIfInBounds p.1 p.2) out)[symbol]? =
      out[symbol]? := by
  induction symbols generalizing lengths out with
  | nil => rfl
  | cons first symbols ih =>
      cases lengths with
      | nil => rfl
      | cons length lengths =>
          rw [List.mem_cons, not_or] at other
          rw [List.zip_cons_cons, List.foldl_cons, ih other.2,
            Array.getElem?_setIfInBounds_ne (Ne.symm other.1)]

theorem getElem?_spread {symbol : Nat} (distinct : symbols.Nodup)
    (same : lengths.length = symbols.length) (member : symbol ∈ symbols) (inside : symbol < out.size) :
    ∃ length ∈ lengths,
      ((symbols.zip lengths).foldl (fun out p => out.setIfInBounds p.1 p.2) out)[symbol]? =
        some length := by
  induction symbols generalizing lengths out with
  | nil => cases member
  | cons first symbols ih =>
      cases lengths with
      | nil => cases same
      | cons length lengths =>
          rw [List.nodup_cons] at distinct
          rw [List.zip_cons_cons, List.foldl_cons]
          cases member with
          | head =>
              refine ⟨length, List.mem_cons_self, ?_⟩
              rw [getElem?_spread_of_not_mem distinct.1, Array.getElem?_setIfInBounds_self_of_lt inside]
          | tail _ member =>
              have within : symbol < (out.setIfInBounds first length).size := by
                rwa [Array.size_setIfInBounds]
              obtain ⟨found, later, value⟩ := ih distinct.2 (Nat.succ.inj same) member within
              exact ⟨found, List.mem_cons_of_mem length later, value⟩

theorem size_spread :
    ((symbols.zip lengths).foldl (fun out p => out.setIfInBounds p.1 p.2) out).size = out.size := by
  generalize symbols.zip lengths = pairs
  induction pairs generalizing out with
  | nil => rfl
  | cons pair pairs ih => rw [List.foldl_cons, ih, Array.size_setIfInBounds]

theorem mem_spread {length : Nat}
    (member : length ∈
      ((symbols.zip lengths).foldl (fun out p => out.setIfInBounds p.1 p.2) out).toList) :
    length ∈ out.toList ∨ length ∈ lengths := by
  induction symbols generalizing lengths out with
  | nil => exact .inl member
  | cons first symbols ih =>
      cases lengths with
      | nil => exact .inl member
      | cons next lengths =>
          obtain old | new := ih member
          · rw [Array.toList_setIfInBounds] at old
            obtain kept | rfl := List.mem_or_eq_of_mem_set old
            · exact .inl kept
            · exact .inr List.mem_cons_self
          · exact .inr (List.mem_cons_of_mem next new)

theorem covered_spread (distinct : symbols.Nodup) (same : lengths.length = symbols.length)
    (unused : ∀ symbol ∈ symbols, out[symbol]? = some 0) (width : Nat) :
    covered ((symbols.zip lengths).foldl (fun out p => out.setIfInBounds p.1 p.2) out).toList width =
      covered out.toList width + covered lengths width := by
  induction symbols generalizing lengths out with
  | nil =>
      cases lengths with
      | nil => rw [covered_nil]; rfl
      | cons length lengths => cases same
  | cons first symbols ih =>
      cases lengths with
      | nil => cases same
      | cons length lengths =>
          rw [List.nodup_cons] at distinct
          have here := unused first List.mem_cons_self
          rw [← Array.getElem?_toList] at here
          rw [List.zip_cons_cons, List.foldl_cons, ih distinct.2 (Nat.succ.inj same),
            Array.toList_setIfInBounds, covered_set here, covered_cons length lengths]
          · exact (Nat.add_right_comm _ _ _).trans (Nat.add_comm _ _)
          · intro symbol member
            have other : first ≠ symbol := by
              rintro rfl
              exact distinct.1 member
            rw [Array.getElem?_setIfInBounds_ne other]
            exact unused symbol (List.mem_cons_of_mem first member)

end Spread

/-! ### Making room -/

theorem getD_modify {counts : Array Nat} {i : Nat} (inside : i < counts.size) (f : Nat → Nat)
    (j : Nat) :
    (counts.modify i f).getD j 0 = if i = j then f (counts.getD j 0) else counts.getD j 0 := by
  rw [Array.getD_eq_getD_getElem?, Array.getElem?_modify, Array.getD_eq_getD_getElem?]
  split
  next same =>
    subst same
    rw [Array.getElem?_eq_getElem inside]
    rfl
  · rfl

theorem count_lengthsOfCounts (counts : Array Nat) (longest length : Nat) :
    (lengthsOfCounts counts longest).count length =
      if 1 ≤ length ∧ length ≤ longest then counts.getD length 0 else 0 := by
  induction longest with
  | zero =>
      rw [if_neg (by omega)]
      rfl
  | succ longest ih =>
      rw [lengthsOfCounts, List.count_append, List.count_replicate, ih]
      by_cases top : longest + 1 = length
      · subst top
        rw [BEq.rfl, if_pos rfl, if_neg (by omega), if_pos (by omega), Nat.add_zero]
      · rw [beq_eq_false_iff_ne.mpr top]
        have below : 1 ≤ length ∧ length ≤ longest + 1 ↔ 1 ≤ length ∧ length ≤ longest := by omega
        simp [below]

theorem lengthBelow_spec {counts : Array Nat} {length bits : Nat} (positive : 0 < length)
    (below : length < bits) (used : counts.getD length 0 ≠ 0) :
    0 < lengthBelow counts bits ∧ lengthBelow counts bits < bits ∧
      counts.getD (lengthBelow counts bits) 0 ≠ 0 := by
  induction bits with
  | zero => omega
  | succ bits ih =>
      rw [lengthBelow]
      split
      next unused =>
        have other : length ≠ bits := by
          rintro rfl
          exact used unused
        obtain ⟨first, second, third⟩ := ih (by omega)
        exact ⟨first, Nat.lt_succ_of_lt second, third⟩
      next found => exact ⟨by omega, Nat.lt_succ_self bits, found⟩

theorem total_atLimit (longest : Nat) (lengths : List Nat) :
    total (Forest.atLimit longest) lengths = lengths.count longest := by
  induction lengths with
  | nil => rfl
  | cons length lengths ih =>
      rw [total, ih, List.count_cons, Forest.atLimit, Nat.add_comm]
      simp only [beq_iff_eq]

/-- Lengths that take `excess` words too much, of which at least as many have the greatest length. -/
structure Crowded (longest excess : Nat) (lengths : List Nat) : Prop where
  range : ∀ length ∈ lengths, 1 ≤ length ∧ length ≤ longest
  room : total (Forest.roomAt longest) lengths = Nat.pow 2 longest + excess
  limit : excess ≤ lengths.count longest
  few : lengths.length ≤ Nat.pow 2 longest

namespace Crowded
variable {longest excess : Nat} {lengths : List Nat}

theorem perm (crowded : Crowded longest excess lengths) {lengths' : List Nat}
    (perm : lengths.Perm lengths') : Crowded longest excess lengths' where
  range length member := crowded.range length (perm.mem_iff.mpr member)
  room := (total_perm perm).symm.trans crowded.room
  limit := perm.count_eq longest ▸ crowded.limit
  few := perm.length_eq ▸ crowded.few

/-- If all lengths were the greatest, there would be room for them. -/
theorem exists_shorter (crowded : Crowded longest (excess + 1) lengths) :
    ∃ length ∈ lengths, length ≠ longest := by
  apply Classical.byContradiction
  intro absent
  have all : ∀ length ∈ lengths, length = longest := fun length member =>
    Classical.byContradiction fun other => absent ⟨length, member, other⟩
  have room := crowded.room
  have few := crowded.few
  have single (lengths : List Nat) (all : ∀ length ∈ lengths, length = longest) :
      total (Forest.roomAt longest) lengths = lengths.length := by
    induction lengths with
    | nil => rfl
    | cons length lengths ih =>
        have here : Forest.roomAt longest length = 1 := by
          rw [all length List.mem_cons_self, Forest.roomAt_self]
        rw [total, here, ih fun other member => all other (List.mem_cons_of_mem _ member),
          List.length_cons, Nat.add_comm]
  rw [single lengths all] at room
  omega

/-- Lengthening one codeword in favour of another takes one word less. -/
theorem exchange {bits : Nat} {rest : List Nat}
    (crowded : Crowded longest (excess + 1) (bits :: longest :: rest)) (below : bits < longest) :
    Crowded longest excess ((bits + 1) :: (bits + 1) :: rest) where
  range length member := by
    rw [List.mem_cons, List.mem_cons, ← or_assoc, or_self] at member
    obtain rfl | later := member
    · exact ⟨Nat.le_add_left 1 bits, below⟩
    · exact crowded.range length (List.mem_cons_of_mem _ (List.mem_cons_of_mem _ later))
  room := by
    have room := crowded.room
    have halves := Forest.Grown.roomAt_pair (Nat.le_of_lt below)
    have least : min (bits + 1) longest = bits + 1 := Nat.min_eq_left below
    rw [least, if_neg (Nat.not_lt.mpr below)] at halves
    simp only [total, Forest.roomAt_self] at room ⊢
    omega
  limit := by
    have limit := crowded.limit
    simp only [List.count_cons] at limit ⊢
    rw [beq_eq_false_iff_ne.mpr (Nat.ne_of_lt below), BEq.rfl] at limit
    simp only [Bool.false_eq_true, if_false, if_true, Nat.add_zero] at limit
    omega
  few := crowded.few

end Crowded

/-- One codeword is lengthened, and one of the greatest length is put beside it. -/
theorem lengthen_perm {longest excess : Nat} {counts : Array Nat} (size : counts.size = longest + 1)
    (crowded : Crowded longest (excess + 1) (lengthsOfCounts counts longest)) :
    ∃ (bits : Nat) (rest : List Nat), bits < longest ∧
      (lengthsOfCounts counts longest).Perm (bits :: longest :: rest) ∧
        (lengthsOfCounts (lengthen longest counts) longest).Perm
          ((bits + 1) :: (bits + 1) :: rest) := by
  obtain ⟨length, member, other⟩ := crowded.exists_shorter
  obtain ⟨least, most⟩ := crowded.range length member
  have used : counts.getD length 0 ≠ 0 := by
    have occurs := List.count_pos_iff.mpr member
    rw [count_lengthsOfCounts, if_pos ⟨least, most⟩] at occurs
    exact Nat.ne_of_gt occurs
  have below := lengthBelow_spec least (Nat.lt_of_le_of_ne most other) used
  simp only [lengthen]
  generalize lengthBelow counts longest = bits at below ⊢
  obtain ⟨positive, less, found⟩ := below
  have first : bits ∈ lengthsOfCounts counts longest := by
    rw [← List.count_pos_iff, count_lengthsOfCounts, if_pos ⟨positive, Nat.le_of_lt less⟩]
    exact Nat.pos_of_ne_zero found
  have second : longest ∈ (lengthsOfCounts counts longest).erase bits := by
    rw [List.mem_erase_of_ne (Nat.ne_of_gt less), ← List.count_pos_iff]
    exact Nat.lt_of_lt_of_le (Nat.succ_pos excess) crowded.limit
  have whole := (List.perm_cons_erase first).trans ((List.perm_cons_erase second).cons bits)
  refine ⟨bits, _, less, whole, List.perm_iff_count.mpr fun length => ?_⟩
  have old := whole.count_eq length
  rw [count_lengthsOfCounts] at old ⊢
  simp only [List.count_cons, beq_iff_eq] at old ⊢
  rw [getD_modify (by simp; omega), getD_modify (by simp; omega), getD_modify (by omega)]
  grind

theorem makeRoom_spec {longest : Nat} (fuel : Nat) {excess : Nat} {counts : Array Nat}
    (enough : excess ≤ fuel) (size : counts.size = longest + 1)
    (crowded : Crowded longest excess (lengthsOfCounts counts longest)) :
    Crowded longest 0 (lengthsOfCounts (makeRoom longest fuel (2 * excess) counts) longest) ∧
      (lengthsOfCounts (makeRoom longest fuel (2 * excess) counts) longest).length =
        (lengthsOfCounts counts longest).length := by
  induction fuel generalizing excess counts with
  | zero =>
      cases Nat.le_zero.mp enough
      exact ⟨crowded, rfl⟩
  | succ fuel ih =>
      cases excess with
      | zero => exact ⟨crowded, rfl⟩
      | succ excess =>
          obtain ⟨bits, rest, below, old, new⟩ := lengthen_perm size crowded
          have size' : (lengthen longest counts).size = longest + 1 := by
            rw [lengthen, Array.size_modify, Array.size_modify, Array.size_modify, size]
          have step := ih (Nat.le_of_succ_le_succ enough) size'
            (((crowded.perm old).exchange below).perm new.symm)
          rw [makeRoom, if_neg (by omega), Nat.mul_succ, Nat.add_sub_cancel]
          refine ⟨step.1, step.2.trans ?_⟩
          rw [new.length_eq, old.length_eq]
          rfl

theorem count_tally {longest : Nat} {lengths : List Nat} (short : ∀ length ∈ lengths, length ≤ longest)
    {counts : Array Nat} (size : counts.size = longest + 1) (length : Nat) :
    (lengths.foldl (fun (counts : Array Nat) n => counts.modify n fun c => c + 1) counts).size =
        longest + 1 ∧
      (lengths.foldl (fun (counts : Array Nat) n => counts.modify n fun c => c + 1) counts).getD
        length 0 = counts.getD length 0 + lengths.count length := by
  induction lengths generalizing counts with
  | nil => exact ⟨size, rfl⟩
  | cons first lengths ih =>
      have inside : first < counts.size := by
        rw [size]
        exact Nat.lt_succ_of_le (short first List.mem_cons_self)
      have kept : (counts.modify first fun c => c + 1).size = longest + 1 := by
        rwa [Array.size_modify]
      obtain ⟨size', value⟩ := ih (fun other member => short other (List.mem_cons_of_mem _ member)) kept
      refine ⟨size', ?_⟩
      rw [List.foldl_cons, value, getD_modify inside, List.count_cons]
      by_cases same : first = length <;> simp [same] <;> omega

/-- Evened out, the lengths have just room. -/
theorem evenOut_spec {longest excess : Nat} {lengths : List Nat}
    (crowded : Crowded longest excess lengths) :
    Crowded longest 0 (evenOut longest (2 * excess) lengths) ∧
      (evenOut longest (2 * excess) lengths).length = lengths.length := by
  have tally := count_tally (fun length member => (crowded.range length member).2)
    (Array.size_replicate (n := longest + 1) (v := 0))
  simp only [evenOut]
  generalize lengths.foldl (fun (counts : Array Nat) n => counts.modify n fun c => c + 1)
    (Array.replicate (longest + 1) 0) = counts at tally ⊢
  have same : lengths.Perm (lengthsOfCounts counts longest) := by
    rw [List.perm_iff_count]
    intro length
    rw [count_lengthsOfCounts, (tally length).2]
    split
    next inside =>
      rw [Array.getD_eq_getD_getElem?, Array.getElem?_replicate, if_pos (by omega)]
      exact (Nat.zero_add _).symm
    next outside =>
      rw [List.count_eq_zero]
      exact fun member => outside (crowded.range length member)
  obtain ⟨even, length⟩ := makeRoom_spec (2 * excess) (by omega) (tally 0).1 (crowded.perm same)
  exact ⟨even, length.trans same.length_eq.symm⟩

/-! ### The code of a set of weights -/

/-- The symbols that get a codeword: at least two, and all that have a weight. -/
structure Chosen (weights used : List Nat) : Prop where
  several : 2 ≤ used.length
  few : used.length ≤ weights.length
  inside : ∀ symbol ∈ used, symbol < weights.length
  distinct : used.Nodup
  all : ∀ symbol, weights.getD symbol 0 ≠ 0 → symbol ∈ used

theorem lt_length_of_getD {list : List Nat} {i : Nat} (used : list.getD i 0 ≠ 0) :
    i < list.length := by
  apply Classical.byContradiction
  intro outside
  rw [List.getD_eq_getElem?_getD, List.getElem?_eq_none (Nat.le_of_not_lt outside)] at used
  exact used rfl

theorem Chosen.pair {weights : List Nat} {first second : Nat} (apart : first ≠ second)
    (inside : first < weights.length) (inside' : second < weights.length)
    (all : ∀ symbol, weights.getD symbol 0 ≠ 0 → symbol = first ∨ symbol = second) :
    Chosen weights [first, second] where
  several := Nat.le_refl 2
  few := by
    show 2 ≤ weights.length
    omega
  inside symbol member := by
    simp only [List.mem_cons, List.not_mem_nil, or_false] at member
    obtain rfl | rfl := member
    · exact inside
    · exact inside'
  distinct := by simp [apart]
  all symbol used := by
    obtain rfl | rfl := all symbol used
    · exact List.mem_cons_self
    · exact List.mem_cons_of_mem _ List.mem_cons_self

theorem mem_weighted (weights : List Nat) (symbol : Nat) :
    symbol ∈ (weights.zipIdx.filter fun p => p.1 ≠ 0).map (fun p => p.2) ↔
      weights.getD symbol 0 ≠ 0 := by
  simp only [List.mem_map, List.mem_filter, Prod.exists, List.mem_zipIdx_iff_getElem?,
    decide_eq_true_eq, List.getD_eq_getElem?_getD]
  cases found : weights[symbol]? <;> simp [found]

theorem chosen_usedSymbols {weights : List Nat} (large : 3 ≤ weights.length) :
    Chosen weights (usedSymbols weights) := by
  have member := mem_weighted weights
  have distinct := nodup_places weights fun p => p.1 ≠ 0
  have few : ((weights.zipIdx.filter fun p => p.1 ≠ 0).map fun p => p.2).length ≤ weights.length := by
    rw [List.length_map]
    exact Nat.le_trans (List.length_filter_le _ _) (Nat.le_of_eq List.length_zipIdx)
  simp only [usedSymbols]
  generalize (weights.zipIdx.filter fun p => p.1 ≠ 0).map (fun p => p.2) = used
    at member distinct few ⊢
  match used with
  | [] =>
      apply Chosen.pair (by decide) (by omega) (by omega)
      intro symbol used
      cases (member symbol).mpr used
  | [single] =>
      have within := lt_length_of_getD ((member single).mp List.mem_cons_self)
      have all (symbol : Nat) (used : weights.getD symbol 0 ≠ 0) : symbol = single :=
        List.mem_singleton.mp ((member symbol).mpr used)
      dsimp only
      split <;> exact .pair (by omega) within (by omega) fun symbol used => .inl (all symbol used)
  | first :: second :: rest =>
      exact ⟨Nat.le_add_left 2 _, few, fun symbol used => lt_length_of_getD ((member symbol).mp used),
        distinct, fun symbol used => (member symbol).mpr used⟩

/-- The leaves of the tree and their lengths. -/
theorem crowded_leaves {longest size : Nat} {used : List Nat} {f : Forest} {root : Nat}
    {order : List Nat} (grown : Forest.Grown longest size used f [root] order)
    (several : 2 ≤ used.length) (few : used.length ≤ Nat.pow 2 longest) :
    ∃ excess, (cutDepths longest f.parent order (Array.replicate f.weight.size 0) 0).2 = 2 * excess ∧
      Crowded longest excess (used.map fun n =>
        (cutDepths longest f.parent order (Array.replicate f.weight.size 0) 0).1.getD n 0) := by
  have flat (n : Nat) : (Array.replicate f.weight.size 0).getD n 0 = 0 := by
    rw [Array.getD_eq_getD_getElem?, Array.getElem?_replicate]
    split <;> rfl
  obtain ⟨excess, cut, measured⟩ := grown.depths (Array.replicate f.weight.size 0) 0
    (Nat.le_of_eq (Array.size_replicate).symm) (fun n _ => by rw [flat]; exact Nat.zero_le _)
  have leaf (n : Nat) (member : n ∈ used) : n ∈ order := by
    have found := grown.leaves.mem_iff.mpr member
    rw [List.mem_filter, List.singleton_append, List.mem_cons, decide_eq_true_eq] at found
    refine found.1.resolve_left ?_
    rintro rfl
    obtain whole | ⟨root, single, large⟩ := grown.inner
    · have bound := List.length_filter_le (fun k => decide (k < size)) ([n] ++ order)
      rw [grown.leaves.length_eq, whole] at bound
      exact absurd (Nat.le_trans several bound) (Nat.not_succ_le_self 1)
    · rw [List.mem_singleton.mp single] at large
      omega
  refine ⟨excess, cut.trans (Nat.zero_add _), ?_, ?_, ?_, ?_⟩
  · intro length member
    obtain ⟨n, found, rfl⟩ := List.mem_map.mp member
    exact measured.below n (leaf n found)
  · rw [total_map, measured.room]
    simp only [total, flat]
    rfl
  · have limit := measured.limit
    rw [← total_atLimit, total_map]
    omega
  · rwa [List.length_map]

theorem size_foldl_modify (symbols : List Nat) (f : Nat → Nat) (array : Array Nat) :
    (symbols.foldl (fun w s => w.modify s f) array).size = array.size := by
  induction symbols generalizing array with
  | nil => rfl
  | cons symbol symbols ih => rw [List.foldl_cons, ih, Array.size_modify]

/-- What codeword lengths are computed from: a tree whose leaves are the symbols in use. -/
theorem codeLengths_eq_spread {longest : Nat} {weights : List Nat} (large : 3 ≤ weights.length)
    (few : weights.length ≤ Nat.pow 2 longest) :
    ∃ leaves lengths : List Nat, codeLengths longest weights = spread weights.length leaves lengths ∧
      leaves.Perm (usedSymbols weights) ∧ lengths.length = leaves.length ∧
        Crowded longest 0 lengths := by
  have chosen := chosen_usedSymbols large
  have positive : 0 < longest := by
    cases longest with
    | zero => exact absurd (Nat.le_trans large few) (by decide)
    | succ longest => exact Nat.succ_pos longest
  simp only [codeLengths]
  generalize usedSymbols weights = used at chosen ⊢
  have size : (used.foldl (fun w s => w.modify s fun x => max x 1) weights.toArray).size =
      weights.length := size_foldl_modify used _ _
  generalize used.foldl (fun w s => w.modify s fun x => max x 1) weights.toArray = weight at size ⊢
  have start : Forest.Grown longest weights.length used
      ⟨weight, Array.replicate weights.length 0, Array.replicate weights.length 0⟩ used [] :=
    .start (Array.size_replicate.trans size.symm) size.symm chosen.inside chosen.distinct
  generalize (⟨weight, Array.replicate weights.length 0, Array.replicate weights.length 0⟩ : Forest) =
    forest at start ⊢
  have heap := forest.heapify_perm (used.length / 2) used.toArray
  have count : (forest.heapify (used.length / 2) used.toArray).size = used.length := heap.length_eq
  have several := chosen.several
  obtain ⟨f, root, order, grows, grown⟩ := Forest.grow_grown positive used.length
    (start.perm heap.symm) (Nat.le_of_eq count) (by rw [count]; omega)
  obtain ⟨excess, cut, crowded⟩ := crowded_leaves grown chosen.several (Nat.le_trans chosen.few few)
  have leaves : ((root :: order).reverse.filter fun n => decide (n < weights.length)).Perm used :=
    ((List.reverse_perm (root :: order)).filter _).trans grown.leaves
  simp only [grows, List.tail_cons, cut]
  generalize (root :: order).reverse.filter (fun n => decide (n < weights.length)) = symbols at leaves ⊢
  have crowded := crowded.perm (leaves.symm.map _)
  refine ⟨symbols, _, rfl, leaves, ?_, ?_⟩
  · split
    · exact List.length_map _
    · exact (evenOut_spec crowded).2.trans (List.length_map _)
  · split
    next whole =>
      cases excess with
      | zero => exact crowded
      | succ excess => omega
    · exact (evenOut_spec crowded).1

theorem size_codeLengths {longest : Nat} {weights : List Nat} (large : 3 ≤ weights.length)
    (few : weights.length ≤ Nat.pow 2 longest) :
    (codeLengths longest weights).size = weights.length := by
  obtain ⟨leaves, lengths, same, _⟩ := codeLengths_eq_spread large few
  rw [same, spread, size_spread, Array.size_replicate]

/-- The lengths make a complete code. -/
theorem complete_codeLengths {longest : Nat} {weights : List Nat} (large : 3 ≤ weights.length)
    (few : weights.length ≤ Nat.pow 2 longest) :
    Complete longest (codeLengths longest weights).toList := by
  obtain ⟨leaves, lengths, same, perm, count, crowded⟩ := codeLengths_eq_spread large few
  have chosen := chosen_usedSymbols large
  have blank (width : Nat) : covered (Array.replicate weights.length 0).toList width = 0 := by
    rw [Array.toList_replicate]
    induction weights.length with
    | zero => exact covered_nil width
    | succ size ih => rw [List.replicate_succ, covered_zero_cons, ih]
  rw [same]
  constructor
  · intro length member
    obtain zero | given := mem_spread member
    · rw [Array.toList_replicate] at zero
      rw [List.eq_of_mem_replicate zero]
      exact Nat.zero_le longest
    · exact (crowded.range length given).2
  · rw [spread, covered_spread (perm.nodup_iff.mpr chosen.distinct) count, blank, Nat.zero_add,
      covered_eq_total crowded.range, crowded.room, Nat.add_zero]
    intro symbol member
    rw [Array.getElem?_replicate, if_pos (chosen.inside symbol (perm.mem_iff.mp member))]

/-- Every symbol that has a weight has a codeword. -/
theorem codeLengths_pos {longest : Nat} {weights : List Nat} (large : 3 ≤ weights.length)
    (few : weights.length ≤ Nat.pow 2 longest) {symbol : Nat} (used : weights.getD symbol 0 ≠ 0) :
    0 < (codeLengths longest weights).getD symbol 0 := by
  obtain ⟨leaves, lengths, same, perm, count, crowded⟩ := codeLengths_eq_spread large few
  have chosen := chosen_usedSymbols large
  have member := chosen.all symbol used
  have inside : symbol < (Array.replicate weights.length 0).size := by
    rw [Array.size_replicate]
    exact chosen.inside symbol member
  obtain ⟨length, given, value⟩ := getElem?_spread (perm.nodup_iff.mpr chosen.distinct) count
    (perm.mem_iff.mpr member) inside
  rw [same, Array.getD_eq_getD_getElem?, spread, value]
  exact (crowded.range length given).1

end TapeChain.Packing
