import TapeChain.Packing.Inflate

/-! Huffman codes of bounded length. Among trees of equal weight the shallower is taken first, and
codewords that come out too long are shortened at the expense of the next longest ones. -/
namespace TapeChain.Packing

/-- The trees under construction. Numbers below the size of the alphabet are its symbols. -/
structure Forest where
  weight : Array Nat
  depth : Array Nat
  parent : Array Nat

namespace Forest

def weightOf (f : Forest) (n : Nat) : Nat := f.weight.getD n 0

def depthOf (f : Forest) (n : Nat) : Nat := f.depth.getD n 0

/-- Whether `n` is joined before `m`. -/
def before (f : Forest) (n m : Nat) : Bool :=
  f.weightOf n < f.weightOf m || (f.weightOf n = f.weightOf m && f.depthOf n ≤ f.depthOf m)

/-- The child of the entry at `k`, counted from one, that is joined first. -/
def firstChild (f : Forest) (k : Nat) (heap : Array Nat) : Nat :=
  if 2 * k < heap.size && f.before (heap.getD (2 * k) 0) (heap.getD (2 * k - 1) 0) then 2 * k + 1
  else 2 * k

/-- Lets the entry at `k` sink to its place in the heap. -/
def sink (f : Forest) : Nat → Nat → Array Nat → Array Nat
  | 0, _, heap => heap
  | fuel + 1, k, heap =>
    if heap.size < 2 * k then heap
    else
      let j := f.firstChild k heap
      let child := heap.getD (j - 1) 0
      let entry := heap.getD (k - 1) 0
      if f.before entry child then heap
      else
        sink f fuel j ((heap.setIfInBounds (k - 1) child).setIfInBounds (j - 1) entry)

/-- Makes a heap by letting the entries `k` to one sink. -/
def heapify (f : Forest) : Nat → Array Nat → Array Nat
  | 0, heap => heap
  | k + 1, heap => heapify f k (f.sink heap.size (k + 1) heap)

/-- The heap without its first entry; the last one stands in its place and is still to sink. -/
def dropFirst (heap : Array Nat) : Array Nat :=
  (heap.setIfInBounds 0 (heap.getD (heap.size - 1) 0)).pop

/-- Joins two trees under a new root. -/
def join (f : Forest) (n m : Nat) : Forest :=
  let root := f.weight.size
  { weight := f.weight.push (f.weightOf n + f.weightOf m)
    depth := f.depth.push (max (f.depthOf n) (f.depthOf m) + 1)
    parent := ((f.parent.setIfInBounds n root).setIfInBounds m root).push 0 }

/-- Joins the two first trees until one is left. Gives all nodes, those joined later first. -/
def grow : Nat → Forest → Array Nat → List Nat → Forest × List Nat
  | 0, f, _, order => (f, order)
  | fuel + 1, f, heap, order =>
    if heap.size < 2 then (f, heap.getD 0 0 :: order)
    else
      let n := heap.getD 0 0
      let heap := dropFirst heap
      let heap := f.sink heap.size 1 heap
      let m := heap.getD 0 0
      let root := f.weight.size
      let f := f.join n m
      let heap := f.sink heap.size 1 (heap.setIfInBounds 0 root)
      grow fuel f heap (m :: n :: order)

end Forest

/-- The symbols in use; at least two are given a codeword. -/
def usedSymbols (weights : List Nat) : List Nat :=
  let used := (weights.zipIdx.filter fun p => p.1 ≠ 0).map fun p => p.2
  match used with
  | [] => [0, 1]
  | [s] => if s < 2 then [s, s + 1] else [s, 0]
  | _ => used

/-- Depths in the tree, cut at `longest`, from the root on, and how many were cut. -/
def cutDepths (longest : Nat) (parent : Array Nat) : List Nat → Array Nat → Nat → Array Nat × Nat
  | [], depths, cut => (depths, cut)
  | n :: rest, depths, cut =>
    let depth := depths.getD (parent.getD n 0) 0 + 1
    if longest < depth then
      cutDepths longest parent rest (depths.setIfInBounds n longest) (cut + 1)
    else cutDepths longest parent rest (depths.setIfInBounds n depth) cut

/-- The greatest length below `bits` in use. -/
def lengthBelow (counts : Array Nat) : Nat → Nat
  | 0 => 0
  | bits + 1 => if counts.getD bits 0 = 0 then lengthBelow counts bits else bits

/-- Makes a codeword of the greatest length below `longest` one bit longer, which leaves room beside
it for one that had the length `longest`. -/
def lengthen (longest : Nat) (counts : Array Nat) : Array Nat :=
  let bits := lengthBelow counts longest
  ((counts.modify bits fun c => c - 1).modify (bits + 1) fun c => c + 2).modify longest fun c => c - 1

/-- Makes room for `cut` codewords of the greatest length, two at a time. -/
def makeRoom (longest : Nat) : Nat → Nat → Array Nat → Array Nat
  | 0, _, counts => counts
  | fuel + 1, cut, counts =>
    if cut = 0 then counts else makeRoom longest fuel (cut - 2) (lengthen longest counts)

/-- `counts` as a list of lengths, the greatest first. -/
def lengthsOfCounts (counts : Array Nat) : Nat → List Nat
  | 0 => []
  | bits + 1 => List.replicate (counts.getD (bits + 1) 0) (bits + 1) ++ lengthsOfCounts counts bits

/-- As many lengths as given ones of which `cut` were cut, the greatest first. -/
def evenOut (longest cut : Nat) (lengths : List Nat) : List Nat :=
  let counts := lengths.foldl (fun (counts : Array Nat) n => counts.modify n fun c => c + 1)
    (Array.replicate (longest + 1) 0)
  lengthsOfCounts (makeRoom longest cut cut counts) longest

/-- Gives symbols their lengths in order; all others have none. -/
def spread (size : Nat) (symbols lengths : List Nat) : Array Nat :=
  (symbols.zip lengths).foldl (fun out p => out.setIfInBounds p.1 p.2) (Array.replicate size 0)

/-- Codeword lengths for symbols of the given weights, none greater than `longest`. -/
def codeLengths (longest : Nat) (weights : List Nat) : Array Nat :=
  let size := weights.length
  let used := usedSymbols weights
  let weight := used.foldl (fun w s => w.modify s fun x => max x 1) weights.toArray
  let forest : Forest := ⟨weight, Array.replicate size 0, Array.replicate size 0⟩
  let heap := forest.heapify (used.length / 2) used.toArray
  let (forest, order) := forest.grow used.length heap []
  let (depths, cut) :=
    cutDepths longest forest.parent order.tail (Array.replicate forest.weight.size 0) 0
  let leaves := order.reverse.filter fun n => n < size
  let lengths := leaves.map fun s => depths.getD s 0
  spread size leaves (if cut = 0 then lengths else evenOut longest cut lengths)

/-! ### Codewords -/

/-- The lowest `width` bits in reverse. -/
def reverseBits (value : Nat) : Nat → Nat
  | 0 => 0
  | width + 1 => value % 2 * Nat.pow 2 width + reverseBits (value / 2) width

/-- The codewords from `code` on for the symbols of one length. -/
def assign (width : Nat) : List Nat → Nat → Array (Nat × Nat) → Array (Nat × Nat)
  | [], _, words => words
  | s :: rest, code, words =>
    assign width rest (code + 1) (words.setIfInBounds s (reverseBits code width, width))

/-- The codewords length by length. -/
def assignAll : List (Nat × List Nat) → Nat → Array (Nat × Nat) → Array (Nat × Nat)
  | [], _, words => words
  | (width, symbols) :: rest, code, words =>
    assignAll rest (2 * (code + symbols.length)) (assign width symbols code words)

/-- The canonical codeword of every symbol, with its width; the first bit is the lowest. -/
def codewords (lengths : List Nat) : Array (Nat × Nat) :=
  let pairs := lengths.zipIdx
  let classes := (List.range longestCode).map fun i =>
    (i + 1, (pairs.filter fun p => p.1 = i + 1).map fun p => p.2)
  assignAll classes 0 (Array.replicate lengths.length (0, 0))

end TapeChain.Packing
