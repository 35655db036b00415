import Mathlib.Data.Int.ModEq
import TapeChain.Machine.Walk
import TapeChain.Proofs.Machine
import TapeChain.Proofs.Operand
import TapeChain.Proofs.Run
import TapeChain.Proofs.Sharing
import TapeChain.Routine.Emit

/-! Operands are the integers modulo 2^32. Digits are cut out of an integer by shifts and masks and
put together again by shifts; the sign is set right last. Both ways round nothing is lost but multiples
of 2^32, and as these are multiples of 256, both engines add to a cell what the program says. -/
namespace TapeChain

namespace Operand

/-! ### Digits -/

/-- Digits put together, the most significant first. -/
def gather (digits : List HexDigit) : Nat := digits.foldl (fun raw d => raw <<< 4 ||| d.val) 0

theorem shift_or_digit (raw : Nat) (d : HexDigit) : raw <<< 4 ||| d.val = 16 * raw + d.val := by
  rw [← Nat.shiftLeft_add_eq_or_of_lt d.isLt, Nat.shiftLeft_eq, Nat.mul_comm]

theorem gather_digits (o : Operand) : gather o.digits = o.unsigned := by
  simp only [gather, digits, List.foldl_cons, List.foldl_nil, shift_or_digit, unsigned]
  omega

/-- What lies above the greatest value stands for a negative number. -/
theorem value_eq_gather (o : Operand) : o.value =
    if greatest < gather o.digits then (gather o.digits : Int) - 2 ^ 32 else (gather o.digits : Int) := by
  rw [gather_digits]
  unfold value greatest
  split <;> split <;> omega

theorem digits_encode (v : Int) : (encode v).digits.map (fun d => (d.val : Int)) =
    (List.range 8).map fun place : Nat => v >>> (4 * (7 - place) : Nat) % 16 := by
  simp only [encode, digits, List.range, List.range.loop, List.map_cons, List.map_nil, Fin.val_ofNat,
    Int.shiftRight_eq_div_pow, List.cons.injEq, Nat.reduceSub, Nat.reduceMul, Nat.reducePow,
    Nat.cast_ofNat, and_true]
  refine ⟨?_, ?_, ?_, ?_, ?_, ?_, ?_, ?_⟩ <;> omega

/-! ### Residues -/

theorem value_encode_modEq (v : Int) : (encode v).value ≡ v [ZMOD 2 ^ 32] := value_encode_emod v

/-- Between the bounds there is one value for each residue. -/
theorem eq_value_encode_iff (v w : Int) :
    w = (encode v).value ↔ -2 ^ 31 ≤ w ∧ w ≤ 2 ^ 31 - 1 ∧ w ≡ v [ZMOD 2 ^ 32] := by
  constructor
  · rintro rfl
    obtain ⟨low, high⟩ := value_bounds (encode v)
    exact ⟨low, high, value_encode_modEq v⟩
  · rintro ⟨low, high, congruent⟩
    have encoded : w % 2 ^ 32 = (encode v).value % 2 ^ 32 := congruent.trans (value_encode_modEq v).symm
    have bounds := value_bounds (encode v)
    simp only [least, greatest] at bounds
    omega

theorem encode_eq_iff (a b : Int) : encode a = encode b ↔ a ≡ b [ZMOD 2 ^ 32] := by
  constructor
  · intro same
    have left := value_encode_modEq a
    rw [same] at left
    exact left.symm.trans (value_encode_modEq b)
  · intro congruent
    have same : (encode a).value = (encode b).value :=
      (eq_value_encode_iff b _).mpr
        ⟨(value_bounds _).1, (value_bounds _).2, (value_encode_modEq a).trans congruent⟩
    rw [← encode_value (encode a), same, encode_value]

end Operand

/-! ### Additions -/

/-- The machine with one cell changed by an amount, modulo 256. -/
def Machine.changed (m : Machine) (i : Fin m.tape.cells.size) (amount : Int) : Machine :=
  let value := m.tape.cells.toVector.get i
  { m with tape := m.tape.put i (UInt8.ofNat ((value.toNat + amount) % 256).toNat) }

theorem Machine.add_encode {m : Machine} {i : Fin m.tape.cells.size} (delta : Int)
    (here : m.tape.slot? m.address = some i) :
    m.add (Operand.encode delta).byte = .done (m.changed i delta) := by
  have sum : m.tape.cells[i] + (Operand.encode delta).byte =
      UInt8.ofNat ((m.tape.cells[i].toNat + delta) % 256).toNat := by
    rw [Operand.byte_encode]
    apply UInt8.toNat.inj
    simp only [UInt8.ofInt, UInt8.toNat_add, UInt8.toNat_ofNat']
    omega
  rw [add_of_slot? _ here, sum]
  rfl

theorem Machine.changed_of_byte_eq_zero {m : Machine} {i : Fin m.tape.cells.size} {delta : Int}
    (here : m.tape.slot? m.address = some i) (nothing : (Operand.encode delta).byte = 0) :
    m.changed i delta = m := by
  have added := m.add_encode delta here
  rw [nothing, add_of_slot? 0 here, UInt8.add_zero, Tape.put_same] at added
  exact (Effect.done.inj added).symm

/-- An addition as the walk makes it. -/
theorem Walk.step_add_encode {m : Machine} {i : Fin m.tape.cells.size} (delta : Int)
    (here : m.tape.slot? m.address = some i) (next : Chain) (loops : List Entered) :
    Walk.step ⟨.add (.encode delta) next, loops, m⟩ = .more ⟨next, loops, m.changed i delta⟩ := by
  rw [Walk.step, m.add_encode delta here]
  rfl

/-- An addition as a routine makes it; where there is nothing to add, it has no statement. -/
theorem Activity.steps_bump_encode {m : Machine} {i : Fin m.tape.cells.size} (delta : Int)
    (here : m.tape.slot? m.address = some i) (r : Routine) (rest : Code) (pending : List Pending) :
    ∃ n ≤ 1, Steps (Activity.step r) n ⟨.bump (Operand.encode delta).byte rest, pending, m⟩
      ⟨rest, pending, m.changed i delta⟩ := by
  by_cases nothing : (Operand.encode delta).byte = 0
  · refine ⟨0, Nat.zero_le 1, ?_⟩
    rw [Code.bump, if_pos nothing, m.changed_of_byte_eq_zero here nothing]
    exact .refl _
  · refine ⟨1, Nat.le_refl 1, .one ?_⟩
    rw [Code.bump, if_neg nothing, Activity.step, m.add_encode delta here]
    rfl

/-- Operands are the integers modulo 2^32: an encoded integer reads as the one value between the
bounds that is congruent to it, every operand is the encoding of its value, and two integers have one
encoding exactly if they are congruent. An addition in a lowered program, whatever its size and wherever
it stands, changes the current cell by its amount modulo 256, and nothing else, in the walk as in a
routine. -/
theorem operands_are_residues :
    (∀ v : Int, (Operand.encode v).digits.map (fun d => (d.val : Int)) =
        (List.range 8).map fun place : Nat => v >>> (4 * (7 - place) : Nat) % 16) ∧
      (∀ o : Operand, o.value = if Operand.greatest < Operand.gather o.digits
        then (Operand.gather o.digits : Int) - 2 ^ 32 else (Operand.gather o.digits : Int)) ∧
      (∀ v w : Int, w = (Operand.encode v).value ↔
        -2 ^ 31 ≤ w ∧ w ≤ 2 ^ 31 - 1 ∧ w ≡ v [ZMOD 2 ^ 32]) ∧
      (∀ o : Operand, Operand.encode o.value = o) ∧
      (∀ a b : Int, Operand.encode a = Operand.encode b ↔ a ≡ b [ZMOD 2 ^ 32]) ∧
      ∀ (delta : Int) (m : Machine) (i : Fin m.tape.cells.size), m.tape.slot? m.address = some i →
        (∀ rest loops, Walk.step ⟨(Program.add delta rest).lower.chain, loops, m⟩ =
          .more ⟨rest.lower.chain, loops, m.changed i delta⟩) ∧
        ∀ table rest budget depth exit hoisted r pending, ∃ n ≤ 1, Steps (Activity.step r) n
          ⟨((Program.lowerInto table (.add delta rest)).1.emit budget depth exit hoisted).1, pending, m⟩
          ⟨((Program.lowerInto table rest).1.emit budget depth exit hoisted).1, pending,
            m.changed i delta⟩ := by
  refine ⟨Operand.digits_encode, Operand.value_eq_gather, Operand.eq_value_encode_iff,
    Operand.encode_value, Operand.encode_eq_iff, ?_⟩
  intro delta m i here
  constructor
  · intro rest loops
    rw [Program.lower_chain, Program.lower_chain]
    exact Walk.step_add_encode delta here rest.chain loops
  · intro table rest budget depth exit hoisted r pending
    exact Activity.steps_bump_encode delta here r _ pending

/-- More than 2^32 is taken from a cell, which wraps round by the last two digits of it. -/
theorem large_addition_wraps :
    (Tape.mk #[2]).slot? 0 = some 0 ∧
      Walk.step ⟨(Program.add (-4294967299) .done).lower.chain, [], ⟨0, ⟨#[2]⟩, #[], 0, #[]⟩⟩ =
        .more ⟨.stop, [], ⟨0, ⟨#[255]⟩, #[], 0, #[]⟩⟩ ∧
      ∃ n ≤ 1, Steps (Activity.step ⟨[], false, .done⟩) n
        ⟨((Program.lowerInto .empty (.add (-4294967299) .done)).1.emit 1 0 .leave .empty).1, [],
          ⟨0, ⟨#[2]⟩, #[], 0, #[]⟩⟩
        ⟨.done, [], ⟨0, ⟨#[255]⟩, #[], 0, #[]⟩⟩ := by
  have here : (Tape.mk #[2]).slot? 0 = some 0 := by decide
  have changed : Machine.changed ⟨0, ⟨#[2]⟩, #[], 0, #[]⟩ 0 (-4294967299) =
      ⟨0, ⟨#[255]⟩, #[], 0, #[]⟩ := by decide
  obtain ⟨walks, calls⟩ :=
    operands_are_residues.2.2.2.2.2 (-4294967299) ⟨0, ⟨#[2]⟩, #[], 0, #[]⟩ 0 here
  rw [changed] at walks calls
  refine ⟨here, ?_, calls .empty .done 1 0 .leave .empty _ []⟩
  have walked := walks .done []
  rwa [Program.lower_chain .done] at walked

end TapeChain
