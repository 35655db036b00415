import TapeChain.CommandLine.Host
import TapeChain.Proofs.Lockstep
import TapeChain.Proofs.Safety

/-! Tapes with more cells. No action of a run that stays on its tape tells where the tape ends: cells
are found from the start of the tape, and only a move that passes the end would notice that the end
has moved. So cells behind the tape change nothing in a run without such a move, and are not changed.
-/
namespace TapeChain

namespace Tape

/-- The tape with further cells behind it. -/
def extend (extra : Bytes) (t : Tape) : Tape := ⟨t.cells ++ extra⟩

theorem size_extend (t : Tape) (extra : Bytes) : (t.extend extra).size = t.size + extra.size :=
  Array.size_append

/-- The same index names the same cell of the longer tape. -/
theorem slot?_extend {t : Tape} {index : Int} (low : 0 ≤ index) (high : index < t.size)
    (extra : Bytes) :
    ∃ i j, t.slot? index = some i ∧ (t.extend extra).slot? index = some j ∧ j.val = i.val := by
  have high' : index < (t.extend extra).size := by
    rw [size_extend]
    omega
  obtain ⟨i, hi, vi⟩ := slot?_of_inside low high
  obtain ⟨j, hj, vj⟩ := slot?_of_inside low high'
  exact ⟨i, j, hi, hj, vj.trans vi.symm⟩

theorem get_extend {t : Tape} {extra : Bytes} {i : Fin t.cells.size}
    {j : Fin (t.extend extra).cells.size} (same : j.val = i.val) :
    (t.extend extra).cells[j] = t.cells[i] := by
  obtain ⟨j, bound⟩ := j
  cases same
  exact Array.getElem_append_left i.isLt

theorem put_extend {t : Tape} {extra : Bytes} {i : Fin t.cells.size}
    {j : Fin (t.extend extra).cells.size} (same : j.val = i.val) (value : UInt8) :
    (t.extend extra).put j value = (t.put i value).extend extra := by
  obtain ⟨j, bound⟩ := j
  cases same
  exact congrArg Tape.mk (Array.set_append_left i.isLt)

theorem blank_extend (size more : Nat) :
    (blank size).extend (Array.replicate more 0) = blank (size + more) :=
  congrArg Tape.mk Array.replicate_append_replicate

end Tape

namespace Machine

def extend (extra : Bytes) (m : Machine) : Machine := { m with tape := m.tape.extend extra }

theorem onTape_extend {m : Machine} (on : m.onTape) (extra : Bytes) : (m.extend extra).onTape := by
  obtain ⟨low, high⟩ := onTape_iff.mp on
  refine onTape_iff.mpr ⟨low, ?_⟩
  simp only [extend, Tape.size_extend]
  omega

theorem slot?_extend {m : Machine} (on : m.onTape) (extra : Bytes) :
    ∃ i j, m.tape.slot? m.address = some i ∧
      (m.extend extra).tape.slot? (m.extend extra).address = some j ∧ j.val = i.val := by
  obtain ⟨low, high⟩ := onTape_iff.mp on
  exact Tape.slot?_extend low high extra

theorem cell?_extend {m : Machine} (on : m.onTape) (extra : Bytes) :
    (m.extend extra).cell? = m.cell? := by
  obtain ⟨i, j, hi, hj, same⟩ := slot?_extend on extra
  rw [cell?_of_slot? hi, cell?_of_slot? hj]
  exact congrArg some (Tape.get_extend same)

theorem store_extend {m : Machine} (on : m.onTape) (extra : Bytes) (value : UInt8) :
    (m.extend extra).store value = (m.store value).map (extend extra) := by
  obtain ⟨i, j, hi, hj, same⟩ := slot?_extend on extra
  rw [store_of_slot? value hi, store_of_slot? value hj]
  simp only [Effect.map, extend, Tape.put_extend same]

theorem add_extend {m : Machine} (on : m.onTape) (extra : Bytes) (delta : UInt8) :
    (m.extend extra).add delta = (m.add delta).map (extend extra) := by
  obtain ⟨value, cell⟩ := cell?_of_onTape on
  simp only [add, cell?_extend on, cell]
  exact store_extend on extra _

theorem write_extend {m : Machine} (on : m.onTape) (extra : Bytes) :
    (m.extend extra).write = m.write.map (extend extra) := by
  obtain ⟨value, cell⟩ := cell?_of_onTape on
  simp only [write, cell?_extend on, cell]
  rfl

theorem read_extend {m : Machine} (on : m.onTape) (extra : Bytes) :
    (m.extend extra).read = m.read.map (extend extra) := by
  by_cases left : m.position < m.input.size
  · have left' : (m.extend extra).position < (m.extend extra).input.size := left
    simp only [read, dif_pos left, dif_pos left']
    exact store_extend (m := { m with position := m.position + 1 }) on extra _
  · have used := Nat.le_of_not_lt left
    rw [read_of_used_up used, read_of_used_up (m := m.extend extra) used]
    rfl

end Machine

theorem Effect.Safe.onTape {n : Nat} {e : Effect} (safe : e.Safe n) {m : Machine} (h : e = .done m) :
    m.onTape := by
  subst h
  exact safe.1

/-- The one way in which a run may notice the end of its tape. -/
def Ending.OffTape (ending : Ending) : Prop := ∃ address size, ending = .fault (.offTape address size)

namespace Machine

theorem shift_carried (m : Machine) (extra : Bytes) (offset : Int) :
    Effect.Carried (extend extra) (fun m => m.onTape) Ending.OffTape ((m.extend extra).shift offset)
      (m.shift offset) := by
  simp only [shift]
  by_cases on : ({ m with address := m.address + offset } : Machine).onTape = true
  · rw [if_pos on]
    exact ⟨on, if_pos (onTape_extend on extra)⟩
  · rw [if_neg on]
    exact .inl ⟨_, _, rfl⟩

theorem forward_carried {m : Machine} (on : m.onTape) (extra : Bytes) (cells : Nat) :
    Effect.Carried (extend extra) (fun m => m.onTape) Ending.OffTape ((m.extend extra).forward cells)
      (m.forward cells) := by
  have safe := forward_safe on cells
  simp only [forward] at safe ⊢
  by_cases high : m.address + cells < m.tape.size
  · have high' : (m.extend extra).address + cells < (m.extend extra).tape.size := by
      simp only [extend, Tape.size_extend]
      omega
    rw [if_pos high] at safe ⊢
    exact ⟨safe.1, if_pos high'⟩
  · rw [if_neg high]
    exact .inl ⟨_, _, rfl⟩

theorem back_carried {m : Machine} (on : m.onTape) (extra : Bytes) (cells : Nat) :
    Effect.Carried (extend extra) (fun m => m.onTape) Ending.OffTape ((m.extend extra).back cells)
      (m.back cells) := by
  have safe := back_safe on cells
  simp only [back] at safe ⊢
  by_cases low : 0 ≤ m.address - cells
  · rw [if_pos low] at safe ⊢
    exact ⟨safe.1, if_pos low⟩
  · rw [if_neg low]
    exact .inl ⟨_, _, rfl⟩

theorem extend_unnoticed (extra : Bytes) :
    Unnoticed (extend extra) (fun m => m.onTape) Ending.OffTape where
  address _ _ := rfl
  cell _ on := cell?_extend on extra
  shift m _ offset := m.shift_carried extra offset
  forward _ on cells := forward_carried on extra cells
  back _ on cells := back_carried on extra cells
  add _ on delta :=
    add_extend on extra delta ▸ Effect.carried_map (fun _ => (add_safe on delta).onTape) _
  write _ on := write_extend on extra ▸ Effect.carried_map (fun _ => (write_safe on).onTape) _
  read _ on := read_extend on extra ▸ Effect.carried_map (fun _ => (read_safe on).onTape) _

end Machine

def Outcome.extend (extra : Bytes) (o : Outcome) : Outcome :=
  { o with machine := o.machine.extend extra }

theorem Executable.enter_extend {x : Executable} (coherent : x.code.Coherent) {m : Machine}
    (on : m.onTape) (extra : Bytes)
    (clean : ∀ fuel address size m', x.enter fuel m ≠ some ⟨.fault (.offTape address size), m'⟩)
    (fuel : Nat) :
    x.enter fuel (m.extend extra) = (x.enter fuel m).map (Outcome.extend extra) := by
  have repeats := entry_repeats coherent (Machine.extend_unnoticed extra) on
  cases run : x.enter fuel m with
  | none => exact repeats.lasts fuel run
  | some o =>
      rcases repeats.ends fuel o run with ⟨address, size, off⟩ | same
      · obtain ⟨ending, m'⟩ := o
        subst off
        exact absurd run (clean fuel address size m')
      · exact same

/-- What is reserved is a tape of the requested size with zeros behind it. -/
theorem CommandLine.reserve_eq_extend {size : Nat} {tape : Tape} (reserved : reserve size = .ok tape) :
    tape = (Tape.blank size).extend (Array.replicate (leastTape - size) 0) := by
  have whole : (max (size : Int) leastTape).toNat = size + (leastTape - size) := by omega
  unfold reserve at reserved
  dsimp only at reserved
  split at reserved
  · cases reserved
  · split at reserved
    · cases reserved
    · cases reserved
      rw [Tape.blank_extend, whole]

/-- Cells behind the tape, whatever is in them, change nothing in a run that never moves off the
tape. Step for step the run on the longer tape is the same, on either engine: it ends if and only if
the run ends, with the same pointer, output and input position, and leaves the same tape with the
further cells as they were behind it. In particular a program that runs without such a fault on a
blank tape of the requested size runs alike on the tape that is reserved for it. -/
theorem wider_tape_repeats_run (x : Executable) (coherent : x.code.Coherent) :
    (∀ (m : Machine) (extra : Bytes), 0 ≤ m.address → m.address < m.tape.size →
        (∀ fuel address size m', x.enter fuel m ≠ some ⟨.fault (.offTape address size), m'⟩) →
        ∀ fuel, x.enter fuel (m.extend extra) = (x.enter fuel m).map (Outcome.extend extra)) ∧
      ∀ (size : Nat) (tape : Tape) (input : Bytes), 0 < size → CommandLine.reserve size = .ok tape →
        (∀ fuel address n m', x.run fuel ⟨0, .blank size, input, 0, #[]⟩ ≠
          .ok (some ⟨.fault (.offTape address n), m'⟩)) →
        ∀ fuel, ∃ r, x.run fuel ⟨0, .blank size, input, 0, #[]⟩ = .ok r ∧
          x.run fuel ⟨0, tape, input, 0, #[]⟩ =
            .ok (r.map (Outcome.extend (Array.replicate (CommandLine.leastTape - size) 0))) := by
  refine ⟨?_, ?_⟩
  · intro m extra low high clean
    exact Executable.enter_extend coherent (Machine.onTape_iff.mpr ⟨low, high⟩) extra clean
  · intro size tape input cells reserved clean fuel
    have length : (Tape.blank size).size = size := Array.size_replicate
    have runs (fuel : Nat) {t : Tape} (present : 0 < t.size) :
        x.run fuel ⟨0, t, input, 0, #[]⟩ = .ok (x.enter fuel ⟨0, t, input, 0, #[]⟩) :=
      Executable.run_of_cells present fuel
    have here : 0 < (Tape.blank size).size := length.symm ▸ cells
    have there : 0 < tape.size := by
      rw [CommandLine.reserve_eq_extend reserved, Tape.size_extend]
      exact Nat.lt_add_right _ here
    have on : (Machine.mk 0 (.blank size) input 0 #[]).onTape := Machine.onTape_start here
    refine ⟨_, runs fuel here, ?_⟩
    rw [runs fuel there, CommandLine.reserve_eq_extend reserved]
    refine congrArg Except.ok (Executable.enter_extend coherent on _ ?_ fuel)
    intro fuel address n m' off
    exact clean fuel address n m' (by rw [runs fuel here, off])

/-- One cell to the right, one below zero, and back: on two cells, with a third behind them, and on
the tape that is reserved when two cells are asked for. -/
theorem two_cells_repeat_run :
    let x : Executable :=
      ⟨.fresh (.move (.encode 1) (.add (.encode (-1)) (.move (.encode (-1)) .stop))), {}⟩
    let o : Outcome := ⟨.finished, ⟨0, ⟨#[0, 255]⟩, #[], 0, #[]⟩⟩
    x.code.Coherent ∧ (∃ fuel, x.enter fuel ⟨0, .blank 2, #[], 0, #[]⟩ = some o) ∧
      (∃ fuel, x.enter fuel ⟨0, ⟨#[0, 0, 9]⟩, #[], 0, #[]⟩ =
        some ⟨.finished, ⟨0, ⟨#[0, 255, 9]⟩, #[], 0, #[]⟩⟩) ∧
      CommandLine.reserve 2 = .ok (.blank 128) ∧
      ∃ fuel, x.run fuel ⟨0, .blank 128, #[], 0, #[]⟩ =
        .ok (some (o.extend (Array.replicate 126 0))) := by
  intro x o
  have coherent : x.code.Coherent := Linked.fresh_coherent _
  have ends : ∃ fuel, x.enter fuel ⟨0, .blank 2, #[], 0, #[]⟩ = some o :=
    (x.code.routine_ends_iff_plain coherent x.config _ _).mpr ⟨4, rfl⟩
  obtain ⟨fuel, run⟩ := ends
  have clean (fuel' : Nat) (address : Int) (size : Nat) (m' : Machine) :
      x.enter fuel' ⟨0, .blank 2, #[], 0, #[]⟩ ≠ some ⟨.fault (.offTape address size), m'⟩ := by
    intro off
    exact absurd (congrArg Outcome.ending (Entry.start_unique run off)) nofun
  obtain ⟨wider, larger⟩ := wider_tape_repeats_run x coherent
  have reserved : CommandLine.reserve 2 = .ok (.blank 128) := rfl
  refine ⟨coherent, ⟨fuel, run⟩, ⟨fuel, ?_⟩, reserved, fuel, ?_⟩
  · have same := wider ⟨0, .blank 2, #[], 0, #[]⟩ #[9] (by decide) (by decide) clean fuel
    rw [run] at same
    exact same
  · obtain ⟨r, here, there⟩ := larger 2 (.blank 128) #[] (by decide) reserved
      (fun fuel' address n m' off => clean fuel' address n m' (Except.ok.inj off)) fuel
    have same : r = some o := (Except.ok.inj here).symm.trans run
    rw [there, same]
    rfl

end TapeChain
