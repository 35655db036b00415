import TapeChain.Packing.Huffman

/-! The tree that codeword lengths are read from. The weights only say which roots are joined: each
round takes two roots out of the heap and puts a new one in, so that in the end every symbol in use
is a leaf of one tree in which each inner node has two children. Depths are measured from the root
down. A node of depth `d` has room for `2 ^ (longest - d)` words of the greatest length, which is
just what its children have together; below the greatest length, where depths are cut, every pair
takes one word more than its parent had. -/
namespace TapeChain.Packing

/-- A measure added up over nodes. -/
def total (measure : Nat → Nat) : List Nat → Nat
  | [] => 0
  | n :: rest => measure n + total measure rest

theorem total_perm {measure : Nat → Nat} {nodes nodes' : List Nat} (perm : nodes.Perm nodes') :
    total measure nodes = total measure nodes' := by
  induction perm with
  | nil => rfl
  | cons n _ ih => rw [total, total, ih]
  | swap n m nodes => exact Nat.add_left_comm _ _ _
  | trans _ _ first second => exact first.trans second

theorem total_congr {measure measure' : Nat → Nat} {nodes : List Nat}
    (same : ∀ n ∈ nodes, measure n = measure' n) : total measure nodes = total measure' nodes := by
  induction nodes with
  | nil => rfl
  | cons n nodes ih =>
      rw [total, total, same n List.mem_cons_self,
        ih fun other member => same other (List.mem_cons_of_mem n member)]

theorem total_map (measure f : Nat → Nat) (nodes : List Nat) :
    total measure (nodes.map f) = total (fun n => measure (f n)) nodes := by
  induction nodes with
  | nil => rfl
  | cons n nodes ih => rw [List.map_cons, total, ih, total]

namespace Forest

/-! ### The heap -/

theorem exchange_perm {heap : Array Nat} {i j : Nat} (first : i < heap.size) (second : j < heap.size) :
    ((heap.setIfInBounds i (heap.getD j 0)).setIfInBounds j (heap.getD i 0)).toList.Perm
      heap.toList := by
  have swapped : (heap.setIfInBounds i (heap.getD j 0)).setIfInBounds j (heap.getD i 0) =
      heap.swap i j first second := by
    simp [Array.setIfInBounds, Array.swap, first, second]
  rw [swapped]
  exact Array.perm_iff_toList_perm.mp (Array.swap_perm first second)

theorem firstChild_bounds (f : Forest) {k : Nat} {heap : Array Nat} (room : 2 * k ≤ heap.size) :
    2 * k ≤ f.firstChild k heap ∧ f.firstChild k heap ≤ heap.size := by
  rw [firstChild]
  split
  next later =>
    rw [Bool.and_eq_true, decide_eq_true_eq] at later
    omega
  · omega

theorem sink_perm (f : Forest) (fuel : Nat) {k : Nat} (counted : 0 < k) (heap : Array Nat) :
    (f.sink fuel k heap).toList.Perm heap.toList := by
  induction fuel generalizing k heap with
  | zero => exact .refl _
  | succ fuel ih =>
      simp only [sink]
      split
      · exact .refl _
      next room =>
        obtain ⟨least, most⟩ := f.firstChild_bounds (Nat.le_of_not_lt room)
        split
        · exact .refl _
        · exact (ih (by omega) _).trans (exchange_perm (by omega) (by omega))

theorem heapify_perm (f : Forest) (k : Nat) (heap : Array Nat) :
    (f.heapify k heap).toList.Perm heap.toList := by
  induction k generalizing heap with
  | zero => exact .refl _
  | succ k ih => exact (ih _).trans (f.sink_perm heap.size (Nat.succ_pos k) heap)

theorem dropFirst_perm {heap : Array Nat} {n : Nat} {rest : List Nat}
    (entries : heap.toList = n :: rest) : (dropFirst heap).toList.Perm rest := by
  obtain ⟨nodes⟩ := heap
  cases entries
  obtain rfl | ⟨middle, last, rfl⟩ := rest.eq_nil_or_concat
  · exact .refl _
  · have moved : (dropFirst ⟨n :: middle.concat last⟩).toList = last :: middle := by
      simp [dropFirst, List.dropLast_cons_of_ne_nil]
    rw [moved, List.concat_eq_append]
    exact (List.perm_append_singleton last middle).symm

/-- One round: two roots leave the heap and the new one enters it. -/
theorem grow_succ (f : Forest) (fuel : Nat) {heap : Array Nat} (several : ¬heap.size < 2)
    (order : List Nat) :
    ∃ (n m : Nat) (rest : List Nat) (heap' : Array Nat), heap.toList.Perm (n :: m :: rest) ∧
      heap'.toList.Perm (f.weight.size :: rest) ∧
        grow (fuel + 1) f heap order = grow fuel (f.join n m) heap' (m :: n :: order) := by
  simp only [grow, if_neg several]
  obtain ⟨n, entries, whole⟩ := List.exists_cons_of_length_pos (l := heap.toList)
    (by rw [Array.length_toList]; omega)
  have first : heap.getD 0 0 = n := by
    simp [Array.getD_eq_getD_getElem?, ← Array.getElem?_toList, whole]
  have left := (f.sink_perm (dropFirst heap).size Nat.one_pos (dropFirst heap)).trans
    (dropFirst_perm whole)
  generalize f.sink (dropFirst heap).size 1 (dropFirst heap) = heap' at left ⊢
  have size : heap'.toList.length + 1 = heap.size := by
    rw [left.length_eq, ← Array.length_toList, whole, List.length_cons]
  obtain ⟨m, rest, whole'⟩ := List.exists_cons_of_length_pos (l := heap'.toList) (by omega)
  have second : heap'.getD 0 0 = m := by
    simp [Array.getD_eq_getD_getElem?, ← Array.getElem?_toList, whole']
  refine ⟨n, m, rest, _, ?_, ?_, by rw [first, second]⟩
  · rw [whole]
    exact (left.symm.trans (.of_eq whole')).cons n
  · refine (sink_perm _ _ Nat.one_pos _).trans (.of_eq ?_)
    rw [Array.toList_setIfInBounds, whole']
    rfl

/-! ### Depths -/

theorem cutDepths_cons (longest : Nat) (parent : Array Nat) (n : Nat) (rest : List Nat)
    (depths : Array Nat) (cut : Nat) :
    cutDepths longest parent (n :: rest) depths cut =
      cutDepths longest parent rest
        (depths.setIfInBounds n (min (depths.getD (parent.getD n 0) 0 + 1) longest))
        (cut + if longest < depths.getD (parent.getD n 0) 0 + 1 then 1 else 0) := by
  rw [cutDepths]
  split
  next deep => rw [Nat.min_eq_right (Nat.le_of_lt deep)]
  next within =>
    rw [Nat.min_eq_left (Nat.le_of_not_lt within)]
    rfl

theorem cutDepths_congr {longest : Nat} {parent parent' : Array Nat} {order : List Nat}
    (same : ∀ n ∈ order, parent.getD n 0 = parent'.getD n 0) (depths : Array Nat) (cut : Nat) :
    cutDepths longest parent order depths cut = cutDepths longest parent' order depths cut := by
  induction order generalizing depths cut with
  | nil => rfl
  | cons n order ih =>
      rw [cutDepths_cons, cutDepths_cons, same n List.mem_cons_self,
        ih fun other member => same other (List.mem_cons_of_mem n member)]

theorem getD_setIfInBounds_self {array : Array Nat} {i : Nat} (inside : i < array.size) (value : Nat) :
    (array.setIfInBounds i value).getD i 0 = value := by
  rw [Array.getD_eq_getD_getElem?, Array.getElem?_setIfInBounds_self_of_lt inside, Option.getD_some]

theorem getD_setIfInBounds_ne {array : Array Nat} {i j : Nat} (other : i ≠ j) (value : Nat) :
    (array.setIfInBounds i value).getD j 0 = array.getD j 0 := by
  rw [Array.getD_eq_getD_getElem?, Array.getElem?_setIfInBounds_ne other,
    ← Array.getD_eq_getD_getElem?]

/-- The words of the greatest length that a node of the given depth has room for. -/
def roomAt (longest depth : Nat) : Nat := Nat.pow 2 (longest - depth)

theorem roomAt_self (longest : Nat) : roomAt longest longest = 1 := by
  rw [roomAt, Nat.sub_self]

/-- Counts the nodes of the greatest depth. -/
def atLimit (longest depth : Nat) : Nat := if depth = longest then 1 else 0

/-- What comes out when the depths below `roots` are measured, from the depths of the roots: `excess`
is half the number of nodes that were cut. -/
structure Measured (longest : Nat) (used roots order : List Nat) (depths depths' : Nat → Nat)
    (excess : Nat) : Prop where
  room : total (fun n => roomAt longest (depths' n)) used =
    total (fun n => roomAt longest (depths n)) roots + excess
  limit : total (fun n => atLimit longest (depths n)) roots + excess ≤
    total (fun n => atLimit longest (depths' n)) used
  below : ∀ n ∈ order, 1 ≤ depths' n ∧ depths' n ≤ longest
  kept : ∀ n, n ∉ order → depths' n = depths n

/-- The state of a forest in which the nodes of `order` have been joined. -/
structure Grown (longest size : Nat) (used : List Nat) (f : Forest) (roots order : List Nat) :
    Prop where
  parents : f.parent.size = f.weight.size
  alphabet : size ≤ f.weight.size
  inside : ∀ n ∈ roots ++ order, n < f.weight.size
  distinct : (roots ++ order).Nodup
  leaves : ((roots ++ order).filter fun n => n < size).Perm used
  inner : order = [] ∨ ∃ root ∈ roots, size ≤ root
  depths : ∀ (depths : Array Nat) (cut : Nat), f.weight.size ≤ depths.size →
    (∀ n ∈ roots, depths.getD n 0 ≤ longest) →
      ∃ excess, (cutDepths longest f.parent order depths cut).2 = cut + 2 * excess ∧
        Measured longest used roots order (depths.getD · 0)
          ((cutDepths longest f.parent order depths cut).1.getD · 0) excess

namespace Grown
variable {longest size : Nat} {used : List Nat} {f : Forest} {roots order : List Nat}

theorem perm (grown : Grown longest size used f roots order) {roots' : List Nat}
    (perm : roots.Perm roots') : Grown longest size used f roots' order where
  parents := grown.parents
  alphabet := grown.alphabet
  inside n member := grown.inside n ((perm.append_right order).mem_iff.mpr member)
  distinct := (perm.append_right order).nodup_iff.mp grown.distinct
  leaves := ((perm.append_right order).filter _).symm.trans grown.leaves
  inner := grown.inner.imp_right fun ⟨root, member, large⟩ => ⟨root, perm.mem_iff.mp member, large⟩
  depths depths cut large shallow := by
    obtain ⟨excess, count, measured⟩ := grown.depths depths cut large fun n member =>
      shallow n (perm.mem_iff.mp member)
    refine ⟨excess, count, ?_, ?_, measured.below, measured.kept⟩
    · rw [← total_perm perm]
      exact measured.room
    · rw [← total_perm perm]
      exact measured.limit

theorem start {forest : Forest} (parents : forest.parent.size = forest.weight.size)
    (alphabet : size = forest.weight.size) (inside : ∀ n ∈ used, n < size) (distinct : used.Nodup) :
    Grown longest size used forest used [] where
  parents := parents
  alphabet := Nat.le_of_eq alphabet
  inside n member := by
    rw [List.append_nil] at member
    exact alphabet ▸ inside n member
  distinct := by rwa [List.append_nil]
  leaves := by
    rw [List.append_nil, List.filter_eq_self.mpr fun n member => decide_eq_true (inside n member)]
  inner := .inl rfl
  depths depths cut _ _ := by
    refine ⟨0, rfl, rfl, Nat.le_refl _, ?_, fun _ _ => rfl⟩
    intro n member
    cases member

theorem roomAt_pair {depth : Nat} (within : depth ≤ longest) :
    2 * roomAt longest (min (depth + 1) longest) =
      roomAt longest depth + if longest < depth + 1 then 1 else 0 := by
  obtain ⟨more, rfl⟩ := Nat.exists_eq_add_of_le within
  cases more with
  | zero => simp [roomAt]
  | succ more =>
      have least : min (depth + 1) (depth + (more + 1)) = depth + 1 := by omega
      have rest : depth + (more + 1) - (depth + 1) = more := by omega
      have rest' : depth + (more + 1) - depth = more + 1 := by omega
      have inside : ¬depth + (more + 1) < depth + 1 := by omega
      rw [least, roomAt, roomAt, rest, rest', if_neg inside]
      exact Nat.mul_comm 2 _

theorem atLimit_pair {depth : Nat} (within : depth ≤ longest) :
    atLimit longest depth + (if longest < depth + 1 then 1 else 0) ≤
      2 * atLimit longest (min (depth + 1) longest) := by
  obtain rfl | less := Nat.eq_or_lt_of_le within
  · simp [atLimit]
  · rw [atLimit, if_neg (Nat.ne_of_lt less), if_neg (Nat.not_lt.mpr less)]
    exact Nat.zero_le _

/-- The parents after a round. -/
theorem parent_join {n m : Nat} (inside : n < f.parent.size) (inside' : m < f.parent.size) :
    (f.join n m).parent.getD m 0 = f.weight.size ∧ (f.join n m).parent.getD n 0 = f.weight.size ∧
      ∀ k < f.parent.size, k ≠ n → k ≠ m → (f.join n m).parent.getD k 0 = f.parent.getD k 0 := by
  have pushed (array : Array Nat) {k : Nat} (inside : k < array.size) :
      (array.push 0).getD k 0 = array.getD k 0 := by
    simp [Array.getD_eq_getD_getElem?, Array.getElem?_push_lt, inside]
  refine ⟨?_, ?_, ?_⟩
  · rw [join, pushed _ (by simpa using inside'), getD_setIfInBounds_self (by simpa using inside')]
  · rw [join, pushed _ (by simpa using inside)]
    by_cases same : m = n
    · rw [same, getD_setIfInBounds_self (by simpa using inside)]
    · rw [getD_setIfInBounds_ne same, getD_setIfInBounds_self inside]
  · intro k within first second
    rw [join, pushed _ (by simpa using within), getD_setIfInBounds_ne (Ne.symm second),
      getD_setIfInBounds_ne (Ne.symm first)]

/-- One round, seen from the depths: the two children take the depth below that of the new root. -/
theorem measured_join (depths : Nat → Nat) {depths' : Nat → Nat} (root : Nat) {n m excess : Nat}
    {rest : List Nat}
    (distinct : ((n :: m :: rest) ++ order).Nodup) (positive : 0 < longest)
    (shallow : depths root ≤ longest)
    (measured : Measured longest used (n :: m :: rest) order
      (fun k => if k = n ∨ k = m then min (depths root + 1) longest else depths k) depths' excess) :
    Measured longest used (root :: rest) (m :: n :: order) depths depths'
      (excess + if longest < depths root + 1 then 1 else 0) := by
  have outside : ∀ k ∈ rest ++ order, ¬(k = n ∨ k = m) := by
    simp only [List.cons_append, List.nodup_cons, List.mem_cons, not_or] at distinct
    rintro k member (rfl | rfl)
    · exact distinct.1.2 member
    · exact distinct.2.1 member
  have unchanged (measure : Nat → Nat) :
      total (fun k => measure (if k = n ∨ k = m then min (depths root + 1) longest else depths k))
        rest = total (fun k => measure (depths k)) rest :=
    total_congr fun k member => by rw [if_neg (outside k (List.mem_append_left order member))]
  have here (k : Nat) (either : k = n ∨ k = m) (joined : k ∉ order) :
      depths' k = min (depths root + 1) longest := by
    rw [measured.kept k joined, if_pos either]
  refine ⟨?_, ?_, ?_, ?_⟩
  · have room := measured.room
    have pair := roomAt_pair shallow
    simp only [total, unchanged, true_or, or_true, if_true] at room ⊢
    omega
  · have limit := measured.limit
    have pair := atLimit_pair shallow
    simp only [total, unchanged, true_or, or_true, if_true] at limit ⊢
    omega
  · intro k member
    by_cases joined : k ∈ order
    · exact measured.below k joined
    · have either : k = n ∨ k = m := by
        rw [List.mem_cons, List.mem_cons, ← or_assoc] at member
        exact (member.resolve_right joined).symm
      rw [here k either joined]
      exact ⟨Nat.le_min.mpr ⟨Nat.le_add_left 1 _, positive⟩, Nat.min_le_right _ _⟩
  · intro k member
    rw [List.mem_cons, List.mem_cons, not_or, not_or] at member
    rw [measured.kept k member.2.2, if_neg (fun either => either.elim member.2.1 member.1)]

theorem cutDepths_pair {parent depths : Array Nat} {n m root : Nat} (first : parent.getD m 0 = root)
    (second : parent.getD n 0 = root) (other : m ≠ root) (order : List Nat) (cut : Nat) :
    cutDepths longest parent (m :: n :: order) depths cut =
      cutDepths longest parent order
        ((depths.setIfInBounds m (min (depths.getD root 0 + 1) longest)).setIfInBounds n
          (min (depths.getD root 0 + 1) longest))
        (cut + 2 * if longest < depths.getD root 0 + 1 then 1 else 0) := by
  rw [cutDepths_cons, cutDepths_cons, first, second, getD_setIfInBounds_ne other, Nat.add_assoc,
    ← Nat.two_mul]

theorem getD_set_pair {depths : Array Nat} {n m : Nat} (inside : n < depths.size)
    (inside' : m < depths.size) (depth k : Nat) :
    ((depths.setIfInBounds m depth).setIfInBounds n depth).getD k 0 =
      if k = n ∨ k = m then depth else depths.getD k 0 := by
  by_cases first : k = n
  · rw [first, getD_setIfInBounds_self (by rwa [Array.size_setIfInBounds]), if_pos (.inl rfl)]
  · rw [getD_setIfInBounds_ne (Ne.symm first)]
    by_cases second : k = m
    · rw [second, getD_setIfInBounds_self inside', if_pos (.inr rfl)]
    · rw [getD_setIfInBounds_ne (Ne.symm second), if_neg (not_or.mpr ⟨first, second⟩)]

section Join
variable {n m : Nat} {rest : List Nat} (grown : Grown longest size used f (n :: m :: rest) order)
include grown

theorem parents_join : (f.join n m).parent.getD m 0 = f.weight.size ∧
    (f.join n m).parent.getD n 0 = f.weight.size ∧
      ∀ k ∈ order, (f.join n m).parent.getD k 0 = f.parent.getD k 0 := by
  have inside (k : Nat) (member : k ∈ (n :: m :: rest) ++ order) : k < f.parent.size :=
    grown.parents ▸ grown.inside k member
  obtain ⟨second, first, others⟩ := parent_join (inside n (by simp)) (inside m (by simp))
  refine ⟨second, first, ?_⟩
  intro k member
  have distinct := grown.distinct
  simp only [List.cons_append, List.nodup_cons, List.mem_cons, List.mem_append, not_or] at distinct
  apply others k (inside k (List.mem_append_right _ member))
  · rintro rfl
    exact distinct.1.2.2 member
  · rintro rfl
    exact distinct.2.1.2 member

/-- The depths are measured from the new root down: first its two children, then as before. -/
theorem depths_join (positive : 0 < longest) (depths : Array Nat) (cut : Nat)
    (large : f.weight.size + 1 ≤ depths.size)
    (shallow : ∀ k ∈ f.weight.size :: rest, depths.getD k 0 ≤ longest) :
    ∃ excess, (cutDepths longest (f.join n m).parent (m :: n :: order) depths cut).2 =
        cut + 2 * excess ∧
      Measured longest used (f.weight.size :: rest) (m :: n :: order) (depths.getD · 0)
        ((cutDepths longest (f.join n m).parent (m :: n :: order) depths cut).1.getD · 0) excess := by
  have inside : n < f.weight.size := grown.inside n (by simp)
  have inside' : m < f.weight.size := grown.inside m (by simp)
  obtain ⟨second, first, others⟩ := grown.parents_join
  rw [cutDepths_pair second first (Nat.ne_of_lt inside'), cutDepths_congr others]
  generalize child : min (depths.getD f.weight.size 0 + 1) longest = depth
  have lookup := getD_set_pair (Nat.lt_trans inside large) (Nat.lt_trans inside' large) depth
  have below (k : Nat) (member : k ∈ n :: m :: rest) :
      ((depths.setIfInBounds m depth).setIfInBounds n depth).getD k 0 ≤ longest := by
    rw [lookup k]
    split
    · rw [← child]
      exact Nat.min_le_right _ _
    next neither =>
      rw [List.mem_cons, List.mem_cons, ← or_assoc] at member
      exact shallow k (List.mem_cons_of_mem _ (member.resolve_left neither))
  obtain ⟨excess, count, measured⟩ := grown.depths
    ((depths.setIfInBounds m depth).setIfInBounds n depth)
    (cut + 2 * if longest < depths.getD f.weight.size 0 + 1 then 1 else 0)
    (by rw [Array.size_setIfInBounds, Array.size_setIfInBounds]; omega) below
  simp only [lookup] at measured
  refine ⟨excess + if longest < depths.getD f.weight.size 0 + 1 then 1 else 0, ?_, ?_⟩
  · rw [count]
    omega
  · rw [← child] at measured ⊢
    exact measured_join (depths.getD · 0) f.weight.size grown.distinct positive
      (shallow _ List.mem_cons_self) measured

theorem join (positive : 0 < longest) :
    Grown longest size used (f.join n m) (f.weight.size :: rest) (m :: n :: order) := by
  have perm : ((f.weight.size :: rest) ++ (m :: n :: order)).Perm
      (f.weight.size :: ((n :: m :: rest) ++ order)) := by
    refine .cons _ (List.perm_middle.trans ?_)
    exact (List.perm_middle.cons m).trans (.swap n m _)
  have size_join : (f.join n m).weight.size = f.weight.size + 1 := Array.size_push _
  constructor
  case parents => simp [Forest.join, grown.parents]
  case alphabet =>
    rw [size_join]
    exact Nat.le_succ_of_le grown.alphabet
  case inside =>
    intro k member
    rw [size_join]
    cases perm.mem_iff.mp member with
    | head => exact Nat.lt_succ_self _
    | tail _ old => exact Nat.lt_succ_of_lt (grown.inside k old)
  case distinct =>
    rw [perm.nodup_iff, List.nodup_cons]
    exact ⟨fun member => Nat.lt_irrefl _ (grown.inside _ member), grown.distinct⟩
  case leaves =>
    refine (perm.filter _).trans ?_
    rw [List.filter_cons_of_neg (by simpa using grown.alphabet)]
    exact grown.leaves
  case inner => exact .inr ⟨f.weight.size, List.mem_cons_self, grown.alphabet⟩
  case depths =>
    rw [size_join]
    exact grown.depths_join positive

end Join

end Grown

/-- In the end one tree is left. -/
theorem grow_grown {longest size : Nat} {used : List Nat} (positive : 0 < longest) (fuel : Nat)
    {f : Forest} {heap : Array Nat} {order : List Nat}
    (grown : Grown longest size used f heap.toList order) (enough : heap.size ≤ fuel)
    (nonempty : 0 < heap.size) :
    ∃ (f' : Forest) (root : Nat) (order' : List Nat),
      grow fuel f heap order = (f', root :: order') ∧ Grown longest size used f' [root] order' := by
  induction fuel generalizing f heap order with
  | zero => omega
  | succ fuel ih =>
      by_cases single : heap.size < 2
      · obtain ⟨root, whole⟩ := List.length_eq_one_iff.mp
          (show heap.toList.length = 1 by rw [Array.length_toList]; omega)
        have first : heap.getD 0 0 = root := by
          simp [Array.getD_eq_getD_getElem?, ← Array.getElem?_toList, whole]
        rw [whole] at grown
        exact ⟨f, root, order, by rw [grow, if_pos single, first], grown⟩
      · obtain ⟨n, m, rest, heap', taken, put, round⟩ := f.grow_succ fuel single order
        have size : heap'.size + 1 = heap.size := by
          have before := taken.length_eq
          have after := put.length_eq
          simp only [Array.length_toList, List.length_cons] at before after
          omega
        rw [round]
        exact ih (((grown.perm taken).join positive).perm put.symm) (by omega) (by omega)

end Forest

end TapeChain.Packing
