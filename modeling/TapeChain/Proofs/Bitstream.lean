import TapeChain.Packing.Deflate

/-! Bits of a stream as lists. A writer stands for the list of the bits it has written, and each of
its operations appends to that list; what is read at a position depends only on the bits that lie
ahead of it. So a writer and a reader need agree only on lists of bits. -/
namespace TapeChain.Packing

/-- The lowest `width` bits of a number, the lowest first. -/
def lowBits (value : Nat) : Nat → List Nat
  | 0 => []
  | width + 1 => value % 2 :: lowBits (value / 2) width

@[simp] theorem length_lowBits (value width : Nat) : (lowBits value width).length = width := by
  induction width generalizing value with
  | zero => rfl
  | succ width ih => rw [lowBits, List.length_cons, ih]

theorem lowBits_add (value first second : Nat) :
    lowBits value (first + second) =
      lowBits value first ++ lowBits (value / Nat.pow 2 first) second := by
  induction first generalizing value with
  | zero => simp [lowBits]
  | succ first ih =>
      have halves : value / 2 / Nat.pow 2 first = value / Nat.pow 2 (first + 1) := by
        rw [Nat.div_div_eq_div_mul, Nat.mul_comm]
        rfl
      rw [Nat.succ_add, lowBits, ih, halves]
      rfl

theorem mul_pow_succ (n width : Nat) : n * Nat.pow 2 (width + 1) = 2 * (n * Nat.pow 2 width) := by
  rw [Nat.mul_comm 2, Nat.mul_assoc]
  rfl

/-- Bits above the lowest `width` do not count. -/
theorem lowBits_add_mul (value above width : Nat) :
    lowBits (value + above * Nat.pow 2 width) width = lowBits value width := by
  induction width generalizing value with
  | zero => rfl
  | succ width ih =>
      rw [lowBits, lowBits, mul_pow_succ, Nat.add_mul_mod_self_left,
        Nat.add_mul_div_left _ _ Nat.two_pos, ih]

theorem lowBits_mod (value width : Nat) :
    lowBits (value % Nat.pow 2 width) width = lowBits value width := by
  have whole := Nat.mod_add_div value (Nat.pow 2 width)
  rw [Nat.mul_comm] at whole
  rw [← lowBits_add_mul (value % Nat.pow 2 width) (value / Nat.pow 2 width), whole]

theorem lowBits_zero (width : Nat) : lowBits 0 width = List.replicate width 0 := by
  induction width with
  | zero => rfl
  | succ width ih => rw [lowBits, ih, List.replicate_succ]

theorem lowBits_inj {value value' width : Nat} (small : value < Nat.pow 2 width)
    (small' : value' < Nat.pow 2 width) (same : lowBits value width = lowBits value' width) :
    value = value' := by
  induction width generalizing value value' with
  | zero => exact (Nat.lt_one_iff.mp small).trans (Nat.lt_one_iff.mp small').symm
  | succ width ih =>
      have double : Nat.pow 2 (width + 1) = Nat.pow 2 width * 2 := rfl
      rw [lowBits, lowBits, List.cons.injEq] at same
      have halves : value / 2 = value' / 2 := ih (by omega) (by omega) same.2
      omega

/-- The bits of bytes. -/
def bitsOf (data : Bytes) : List Nat := data.toList.flatMap fun b => lowBits b.toNat 8

theorem bitsOf_append (first second : Bytes) :
    bitsOf (first ++ second) = bitsOf first ++ bitsOf second := by
  rw [bitsOf, Array.toList_append, List.flatMap_append]
  rfl

theorem bitsOf_push (data : Bytes) (b : UInt8) :
    bitsOf (data.push b) = bitsOf data ++ lowBits b.toNat 8 := by
  rw [bitsOf, Array.toList_push, List.flatMap_append, List.flatMap_singleton]
  rfl

@[simp] theorem length_bitsOf (data : Bytes) : (bitsOf data).length = 8 * data.size := by
  obtain ⟨bytes⟩ := data
  induction bytes with
  | nil => rfl
  | cons b bytes ih =>
      have rest : (bytes.flatMap fun b => lowBits b.toNat 8).length = 8 * bytes.length := ih
      rw [bitsOf, List.flatMap_cons, List.length_append, length_lowBits, rest, List.size_toArray,
        List.length_cons]
      omega

theorem bitsOf_inj {first second : Bytes} (same : bitsOf first = bitsOf second) : first = second := by
  obtain ⟨bytes⟩ := first
  obtain ⟨bytes'⟩ := second
  simp only [bitsOf] at same
  congr 1
  induction bytes generalizing bytes' with
  | nil =>
      cases bytes' with
      | nil => rfl
      | cons b bytes' => simp [lowBits] at same
  | cons b bytes ih =>
      cases bytes' with
      | nil => simp [lowBits] at same
      | cons b' bytes' =>
          rw [List.flatMap_cons, List.flatMap_cons] at same
          obtain ⟨head, tail⟩ := List.append_inj same (by simp)
          have byte := lowBits_inj b.toNat_lt b'.toNat_lt head
          rw [UInt8.toNat_inj.mp byte, ih bytes' tail]

theorem getElem?_lowBits (value : Nat) {width i : Nat} (inside : i < width) :
    (lowBits value width)[i]? = some (value / Nat.pow 2 i % 2) := by
  obtain ⟨rest, rfl⟩ := Nat.exists_eq_add_of_le inside
  have ends : (lowBits value i).length ≤ i := Nat.le_of_eq (length_lowBits value i)
  rw [Nat.succ_add_eq_add_succ, lowBits_add, List.getElem?_append_right ends, length_lowBits,
    Nat.sub_self]
  rfl

theorem bitAt?_eq (data : Bytes) (position : Nat) :
    bitAt? data position = (bitsOf data)[position]? := by
  obtain ⟨bytes⟩ := data
  induction bytes generalizing position with
  | nil => rfl
  | cons b bytes ih =>
      rw [bitsOf, List.flatMap_cons]
      by_cases first : position < 8
      · have byte : position / 8 = 0 := by omega
        have bit : position % 8 = position := by omega
        rw [List.getElem?_append_left (by simpa using first), getElem?_lowBits _ first, bitAt?, byte,
          bit]
        rfl
      · have later : position / 8 = (position - 8) / 8 + 1 := by omega
        have bit : position % 8 = (position - 8) % 8 := by omega
        have rest := ih (position - 8)
        rw [bitAt?, List.getElem?_toArray] at rest
        rw [List.getElem?_append_right (by simpa using first), length_lowBits, bitAt?, later, bit,
          List.getElem?_toArray, List.getElem?_cons_succ, rest]
        rfl

/-! ### Reading -/

/-- The bits from a position on begin with the given ones. -/
def Ahead (data : Bytes) (position : Nat) (bits : List Nat) : Prop :=
  bits <+: (bitsOf data).drop position

namespace Ahead
variable {data : Bytes} {position : Nat} {bits first second : List Nat}

theorem append_iff : Ahead data position (first ++ second) ↔
    Ahead data position first ∧ Ahead data (position + first.length) second := by
  rw [Ahead, Ahead, Ahead, ← List.drop_drop]
  constructor
  · rintro ⟨rest, same⟩
    rw [← same, List.append_assoc, List.drop_left]
    exact ⟨List.prefix_append _ _, List.prefix_append _ _⟩
  · rintro ⟨⟨rest, same⟩, after⟩
    rw [← same, List.drop_left] at after
    rw [← same]
    exact (List.prefix_append_right_inj first).mpr after

theorem left (ahead : Ahead data position (first ++ second)) : Ahead data position first :=
  (append_iff.mp ahead).1

theorem right (ahead : Ahead data position (first ++ second)) :
    Ahead data (position + first.length) second :=
  (append_iff.mp ahead).2

theorem end_le (ahead : Ahead data position bits) (inside : position ≤ 8 * data.size) :
    position + bits.length ≤ 8 * data.size := by
  have short := List.IsPrefix.length_le ahead
  rw [List.length_drop, length_bitsOf] at short
  omega

theorem bitAt? {bit : Nat} (ahead : Ahead data position (bit :: bits)) :
    bitAt? data position = some bit := by
  obtain ⟨rest, same⟩ := ahead
  rw [bitAt?_eq, ← Nat.add_zero position, ← List.getElem?_drop, ← same]
  rfl

theorem tail {bit : Nat} (ahead : Ahead data position (bit :: bits)) :
    Ahead data (position + 1) bits :=
  right (show Ahead data position ([bit] ++ bits) from ahead)

theorem bitsAt {value width : Nat} (ahead : Ahead data position (lowBits value width))
    (small : value < Nat.pow 2 width) : bitsAt data position width = .ok value := by
  induction width generalizing position value with
  | zero =>
      rw [Nat.lt_one_iff.mp small]
      rfl
  | succ width ih =>
      have double : Nat.pow 2 (width + 1) = Nat.pow 2 width * 2 := rfl
      have half : value / 2 < Nat.pow 2 width := by omega
      rw [Packing.bitsAt, ahead.bitAt?, ih ahead.tail half]
      exact congrArg Except.ok (Nat.mod_add_div value 2)

/-- Whole bytes that lie ahead of a byte boundary are there to be cut out. -/
theorem extract {bytes : Bytes} {start : Nat} (ahead : Ahead data (8 * start) (bitsOf bytes))
    (inside : start ≤ data.size) :
    data.extract start (start + bytes.size) = bytes := by
  have room := ahead.end_le (Nat.mul_le_mul_left 8 inside)
  rw [length_bitsOf] at room
  apply bitsOf_inj
  have whole : data = data.extract 0 start ++ data.extract start (start + bytes.size) ++
      data.extract (start + bytes.size) data.size := by
    rw [Array.extract_append_extract, Nat.zero_min, Nat.max_eq_right (Nat.le_add_right _ _),
      Array.extract_append_extract, Nat.zero_min, Nat.max_eq_right (by omega), Array.extract_size]
  have skipped : 8 * start = (bitsOf (data.extract 0 start)).length := by
    rw [length_bitsOf, Array.size_extract]
    omega
  rw [Ahead, whole, bitsOf_append, bitsOf_append, List.append_assoc, skipped, List.drop_left] at ahead
  obtain ⟨rest, same⟩ := ahead
  refine (List.append_inj same ?_).1.symm
  rw [length_bitsOf, length_bitsOf, Array.size_extract]
  omega

end Ahead

/-! ### Writing -/

namespace BitWriter

def bits (w : BitWriter) : List Nat := bitsOf w.bytes ++ lowBits w.pending w.width

/-- Fewer than eight bits are pending, and nothing above them. -/
structure Settled (w : BitWriter) : Prop where
  short : w.width < 8
  small : w.pending < Nat.pow 2 w.width

theorem Settled.start : Settled ⟨#[], 0, 0⟩ := ⟨by decide, by decide⟩

theorem bits_drain (fuel : Nat) (w : BitWriter) : (drain fuel w).bits = w.bits := by
  induction fuel generalizing w with
  | zero => rfl
  | succ fuel ih =>
      rw [drain]
      split
      · rfl
      next long =>
        have byte : (UInt8.ofNat (w.pending % 256)).toNat = w.pending % Nat.pow 2 8 := by
          rw [UInt8.toNat_ofNat']
          exact Nat.mod_mod _ _
        obtain ⟨more, width⟩ := Nat.exists_eq_add_of_le (Nat.le_of_not_lt long)
        rw [ih, bits, bitsOf_push, byte, lowBits_mod, bits, width, Nat.add_sub_cancel_left,
          lowBits_add w.pending 8 more, List.append_assoc]

theorem settled_drain {fuel : Nat} {w : BitWriter} (enough : w.width < 8 * (fuel + 1))
    (small : w.pending < Nat.pow 2 w.width) : Settled (drain fuel w) := by
  induction fuel generalizing w with
  | zero => exact ⟨enough, small⟩
  | succ fuel ih =>
      rw [drain]
      split
      next short => exact ⟨short, small⟩
      next long =>
        obtain ⟨more, width⟩ := Nat.exists_eq_add_of_le (Nat.le_of_not_lt long)
        have split : Nat.pow 2 (8 + more) = 256 * Nat.pow 2 more := Nat.pow_add 2 8 more
        rw [width, split] at small
        apply ih
        · change w.width - 8 < 8 * (fuel + 1)
          omega
        · change w.pending / 256 < Nat.pow 2 (w.width - 8)
          rw [width, Nat.add_sub_cancel_left]
          exact Nat.div_lt_of_lt_mul small

/-- What an operation appends. -/
def Emits (write : BitWriter → BitWriter) (bits : List Nat) : Prop :=
  ∀ w : BitWriter, Settled w → Settled (write w) ∧ (write w).bits = w.bits ++ bits

theorem Emits.id : Emits (fun w => w) [] := fun _ settled => ⟨settled, (List.append_nil _).symm⟩

theorem Emits.comp {write write' : BitWriter → BitWriter} {bits bits' : List Nat}
    (emits : Emits write bits) (emits' : Emits write' bits') :
    Emits (fun w => write' (write w)) (bits ++ bits') := by
  intro w settled
  obtain ⟨settled', first⟩ := emits w settled
  obtain ⟨settled'', second⟩ := emits' (write w) settled'
  exact ⟨settled'', by rw [second, first, List.append_assoc]⟩

theorem Emits.foldl {α : Type} {write : BitWriter → α → BitWriter} {bits : α → List Nat}
    {items : List α} (each : ∀ item ∈ items, Emits (fun w => write w item) (bits item)) :
    Emits (fun w => items.foldl write w) (items.flatMap bits) := by
  induction items with
  | nil => exact Emits.id
  | cons item items ih =>
      exact (each item List.mem_cons_self).comp
        (ih fun other member => each other (List.mem_cons_of_mem item member))

theorem emits_put {value width : Nat} (short : width ≤ 16) (small : value < Nat.pow 2 width) :
    Emits (fun w => w.put value width) (lowBits value width) := by
  intro w settled
  have sum : w.pending + value * Nat.pow 2 w.width < Nat.pow 2 (w.width + width) := by
    have product : Nat.pow 2 (w.width + width) = Nat.pow 2 w.width * Nat.pow 2 width :=
      Nat.pow_add 2 w.width width
    have step : (value + 1) * Nat.pow 2 w.width ≤ Nat.pow 2 width * Nat.pow 2 w.width :=
      Nat.mul_le_mul_right _ small
    have pending := settled.small
    rw [Nat.add_one_mul] at step
    rw [product, Nat.mul_comm (Nat.pow 2 w.width)]
    omega
  have above : (w.pending + value * Nat.pow 2 w.width) / Nat.pow 2 w.width = value := by
    have positive : 0 < Nat.pow 2 w.width := Nat.two_pow_pos w.width
    rw [Nat.add_mul_div_right _ _ positive, Nat.div_eq_of_lt settled.small, Nat.zero_add]
  constructor
  · apply settled_drain (Nat.lt_of_lt_of_le (Nat.add_lt_add_of_lt_of_le settled.short short) _) sum
    decide
  · change (drain 3 _).bits = _
    rw [bits_drain, bits, bits, lowBits_add, lowBits_add_mul, above, List.append_assoc]

/-- Zeros up to the next byte boundary. -/
def padding (written : Nat) : List Nat := List.replicate ((8 - written % 8) % 8) 0

theorem length_bits (w : BitWriter) : w.bits.length = 8 * w.bytes.size + w.width := by
  rw [bits, List.length_append, length_bitsOf, length_lowBits]

theorem bits_of_width_eq_zero {w : BitWriter} (whole : w.width = 0) : w.bits = bitsOf w.bytes := by
  rw [bits, whole, lowBits, List.append_nil]

theorem width_align (w : BitWriter) : w.align.width = 0 := by
  rw [align]
  split
  next empty => exact empty
  · rfl

theorem Settled.align {w : BitWriter} (settled : Settled w) : Settled w.align := by
  rw [BitWriter.align]
  split
  · exact settled
  · exact ⟨Nat.zero_lt_succ 7, Nat.zero_lt_one⟩

theorem bits_align {w : BitWriter} (settled : Settled w) :
    bitsOf w.align.bytes = w.bits ++ padding w.bits.length := by
  have short := settled.short
  rw [length_bits, padding]
  rw [BitWriter.align]
  split
  next empty => simp [bits, empty, lowBits]
  next pending =>
    have small : w.pending < Nat.pow 2 8 :=
      Nat.lt_of_lt_of_le settled.small (Nat.pow_le_pow_right Nat.two_pos (Nat.le_of_lt short))
    have byte : (UInt8.ofNat w.pending).toNat = w.pending := by
      rw [UInt8.toNat_ofNat']
      exact Nat.mod_eq_of_lt small
    have rest : (8 - (8 * w.bytes.size + w.width) % 8) % 8 = 8 - w.width := by omega
    have split : w.width + (8 - w.width) = 8 := by omega
    have above : w.pending / Nat.pow 2 w.width = 0 := Nat.div_eq_of_lt settled.small
    have whole := lowBits_add w.pending w.width (8 - w.width)
    rw [split, above, lowBits_zero] at whole
    rw [bitsOf_push, byte, whole, rest, bits, List.append_assoc]

end BitWriter

end TapeChain.Packing
