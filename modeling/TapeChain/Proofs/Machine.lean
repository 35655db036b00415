import TapeChain.Machine.Basic

/-! A machine whose pointer stands on its tape. Every action then finds its cell, keeps the length of
the tape, and leaves the tape in one way only, by a move that is reported. -/
namespace TapeChain

theorem Tape.slot?_of_inside {t : Tape} {index : Int} (low : 0 ≤ index) (high : index < t.size) :
    ∃ i, t.slot? index = some i ∧ i.val = index.toNat := by
  have fits : 0 ≤ index ∧ index.toNat < t.cells.size := ⟨low, by simp only [Tape.size] at high; omega⟩
  refine ⟨⟨index.toNat, fits.2⟩, ?_, rfl⟩
  simp only [Tape.slot?, if_pos low, dif_pos fits]

@[simp] theorem Tape.size_put (t : Tape) (i : Fin t.cells.size) (value : UInt8) :
    (t.put i value).size = t.size := by
  simp only [Tape.put, Tape.size, Array.size_set]

theorem Tape.put_same (t : Tape) (i : Fin t.cells.size) (inside : i.val < t.cells.size) :
    t.put i t.cells[i] = t := by
  simp only [Tape.put, Fin.getElem_fin, Array.set_getElem_self]

theorem Tape.get_put {t : Tape} {i : Fin t.cells.size} {value : UInt8}
    {j : Fin (t.put i value).cells.size} (same : j.val = i.val) :
    (t.put i value).cells[j] = value := by
  obtain ⟨j, bound⟩ := j
  cases same
  exact Array.getElem_set_self i.isLt

theorem Tape.put_put {t : Tape} {i : Fin t.cells.size} {value : UInt8}
    {j : Fin (t.put i value).cells.size} (same : j.val = i.val) (later : UInt8) :
    (t.put i value).put j later = t.put i later := by
  simp only [Tape.put, same, Array.set_set]

/-- What an action may do to a machine that stands on a tape of `n` cells. -/
def Effect.Safe (n : Nat) : Effect → Prop
  | .done m => m.onTape ∧ m.tape.size = n
  | .dry m => m.onTape ∧ m.tape.size = n
  | .fault f m => f = .offTape m.address n ∧ ¬ m.onTape ∧ m.tape.size = n

/-- How a run on a tape of `n` cells may end. -/
def Outcome.Safe (n : Nat) (o : Outcome) : Prop :=
  o.machine.tape.size = n ∧
    match o.ending with
    | .fault f => f = .offTape o.machine.address n ∧ ¬ o.machine.onTape
    | _ => o.machine.onTape

namespace Machine

theorem onTape_iff {m : Machine} : m.onTape = true ↔ 0 ≤ m.address ∧ m.address < m.tape.size := by
  simp only [onTape, Bool.and_eq_true, decide_eq_true_eq]

theorem onTape_start {t : Tape} {input output : Array UInt8} {position : Nat} (cells : 0 < t.size) :
    (Machine.mk 0 t input position output).onTape :=
  onTape_iff.mpr ⟨Int.le_refl 0, Int.natCast_pos.mpr cells⟩

theorem slot?_of_onTape {m : Machine} (h : m.onTape) : ∃ i, m.tape.slot? m.address = some i := by
  obtain ⟨low, high⟩ := onTape_iff.mp h
  obtain ⟨i, hi, -⟩ := Tape.slot?_of_inside low high
  exact ⟨i, hi⟩

theorem cell?_of_slot? {m : Machine} {i : Fin m.tape.cells.size}
    (h : m.tape.slot? m.address = some i) : m.cell? = some m.tape.cells[i] := by
  simp only [cell?, Tape.get?, h, Option.map_some]

theorem cell?_of_onTape {m : Machine} (h : m.onTape) : ∃ value, m.cell? = some value := by
  obtain ⟨i, hi⟩ := slot?_of_onTape h
  exact ⟨_, cell?_of_slot? hi⟩

theorem store_of_slot? {m : Machine} {i : Fin m.tape.cells.size} (value : UInt8)
    (h : m.tape.slot? m.address = some i) :
    m.store value = .done { m with tape := m.tape.put i value } := by
  obtain ⟨address, tape, input, position, output⟩ := m
  simp only [store]
  split
  · next j hj => rw [Option.some.inj (hj.symm.trans h)]
  · next hj => exact absurd (hj.symm.trans h) nofun

theorem add_of_slot? {m : Machine} {i : Fin m.tape.cells.size} (delta : UInt8)
    (h : m.tape.slot? m.address = some i) :
    m.add delta = .done { m with tape := m.tape.put i (m.tape.cells[i] + delta) } := by
  simp only [add, cell?_of_slot? h, store_of_slot? _ h]

theorem add_zero_of_onTape {m : Machine} (h : m.onTape) : m.add 0 = .done m := by
  obtain ⟨i, hi⟩ := slot?_of_onTape h
  rw [add_of_slot? 0 hi, UInt8.add_zero, Tape.put_same]

theorem add_add_of_onTape {m : Machine} (h : m.onTape) (a : UInt8) :
    ∃ m', m.add a = .done m' ∧ m'.onTape ∧ ∀ b, m'.add b = m.add (a + b) := by
  obtain ⟨low, high⟩ := onTape_iff.mp h
  obtain ⟨i, hi, hval⟩ := Tape.slot?_of_inside low high
  refine ⟨_, add_of_slot? a hi, ?_, ?_⟩
  · simpa only [onTape, Tape.size_put] using h
  · intro b
    have high' : m.address < (m.tape.put i (m.tape.cells[i] + a)).size := by
      rw [Tape.size_put]
      exact high
    obtain ⟨j, hj, hval'⟩ := Tape.slot?_of_inside low high'
    have same : j.val = i.val := hval'.trans hval.symm
    rw [add_of_slot? b hj, add_of_slot? (a + b) hi]
    simp only [Tape.get_put same, Tape.put_put same, UInt8.add_assoc]

/-- Only where a move ends counts. -/
theorem shift_shift (m : Machine) (first second : Int) :
    ({ m with address := m.address + first } : Machine).shift second = m.shift (first + second) := by
  simp only [shift, Int.add_assoc]

theorem shift_zero_of_onTape {m : Machine} (h : m.onTape) : m.shift 0 = .done m := by
  simp only [shift, Int.add_zero, h, if_true]

/-- Only the end lies ahead of a pointer that is not before the start. -/
theorem shift_eq_forward {m : Machine} {offset : Int} (low : 0 ≤ m.address) (positive : 0 < offset) :
    m.shift offset = m.forward offset.toNat := by
  have same : ((offset.toNat : Nat) : Int) = offset := Int.toNat_of_nonneg (Int.le_of_lt positive)
  have before : 0 ≤ m.address + offset := by omega
  simp only [shift, forward, same, onTape, decide_eq_true before, Bool.true_and, decide_eq_true_eq]

/-- Only the start lies behind a pointer that is not past the end. -/
theorem shift_eq_back {m : Machine} {offset : Int} (high : m.address < m.tape.size)
    (negative : offset < 0) : m.shift offset = m.back (-offset).toNat := by
  have same : m.address + offset = m.address - ((-offset).toNat : Nat) := by omega
  have inside : m.address - ((-offset).toNat : Nat) < m.tape.size := by omega
  simp only [shift, back, same, onTape, decide_eq_true inside, Bool.and_true, decide_eq_true_eq]

/-! ### Every action is safe -/

theorem shift_safe (m : Machine) (offset : Int) : (m.shift offset).Safe m.tape.size := by
  simp only [shift]
  split
  · next h => exact ⟨h, rfl⟩
  · next h => exact ⟨rfl, h, rfl⟩

theorem store_safe {m : Machine} (h : m.onTape) (value : UInt8) :
    (m.store value).Safe m.tape.size := by
  obtain ⟨i, hi⟩ := slot?_of_onTape h
  rw [store_of_slot? value hi]
  refine ⟨?_, Tape.size_put _ _ _⟩
  simpa only [onTape, Tape.size_put] using h

theorem add_safe {m : Machine} (h : m.onTape) (delta : UInt8) : (m.add delta).Safe m.tape.size := by
  obtain ⟨value, hv⟩ := cell?_of_onTape h
  simp only [add, hv]
  exact store_safe h _

theorem write_safe {m : Machine} (h : m.onTape) : m.write.Safe m.tape.size := by
  obtain ⟨value, hv⟩ := cell?_of_onTape h
  simp only [write, hv]
  exact ⟨h, rfl⟩

theorem read_safe {m : Machine} (h : m.onTape) : m.read.Safe m.tape.size := by
  simp only [read]
  split
  · next hp => exact store_safe (m := { m with position := m.position + 1 }) h _
  · exact ⟨h, rfl⟩

end Machine

end TapeChain
