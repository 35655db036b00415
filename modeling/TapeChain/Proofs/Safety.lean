import TapeChain.Executable
import TapeChain.Proofs.Backend
import TapeChain.Proofs.Frames

/-! Runs stay on their tape. The statements of a routine test only the side that a move goes towards,
so that the pointer is on the tape is an invariant of the run and not the result of each test. Which
cell a step uses is told by an access; a step looks at no other cell and changes no other cell. -/
namespace TapeChain

/-- The use of a cell: its index, and the number that is stored in it, if one is. -/
structure Access where
  index : Int
  stored : Option Int
  deriving DecidableEq

/-- The tape after an access; a number goes in as a byte. -/
def Access.perform (t : Tape) : Option Access → Tape
  | some ⟨index, some value⟩ => (t.set? index (UInt8.ofInt value)).getD t
  | some ⟨_, none⟩ => t
  | none => t

def Machine.onto (t : Tape) (m : Machine) : Machine := { m with tape := t }

def Effect.onto (t : Tape) : Effect → Effect
  | .done m => .done (m.onto t)
  | .dry m => .dry (m.onto t)
  | .fault f m => .fault f (m.onto t)

def Outcome.onto (t : Tape) (o : Outcome) : Outcome := { o with machine := o.machine.onto t }

/-- States that hold a machine, the step from one to the next, and the cell that the step uses. -/
structure Engine (σ : Type) where
  step : σ → Progress σ
  machine : σ → Machine
  onto : Tape → σ → σ
  access? : σ → Option Access

def Engine.stepOnto {σ : Type} (e : Engine σ) (t : Tape) : Progress σ → Progress σ
  | .more s => .more (e.onto t s)
  | .ended o => .ended (o.onto t)

/-- What the step from a state does with a tape of `n` cells. It uses one cell at most, by an index
from the start of the tape; what it stores is a byte; and on every tape of that length with the same
value in that cell it does the same, apart from what the access does to the tape. -/
structure Engine.Confined {σ : Type} (e : Engine σ) (n : Nat) (s : σ) : Prop where
  length : (e.machine s).tape.size = n
  inside : ∀ a ∈ e.access? s, 0 ≤ a.index ∧ a.index < n
  byte : ∀ a ∈ e.access? s, ∀ value ∈ a.stored, 0 ≤ value ∧ value < 256
  frame : ∀ t : Tape, t.size = n →
    (∀ a ∈ e.access? s, t.get? a.index = (e.machine s).tape.get? a.index) →
    e.step (e.onto t s) = e.stepOnto (Access.perform t (e.access? s)) (e.step s)

/-- On `n` cells the indices from `-n` to `n - 1` name a cell. -/
theorem Tape.isSome_slot? (t : Tape) (index : Int) :
    (t.slot? index).isSome = decide (-(t.size : Int) ≤ index ∧ index < t.size) := by
  rw [Bool.eq_iff_iff, decide_eq_true_eq]
  simp only [slot?, size]
  split_ifs with front here here
  · simp only [Option.isSome_some, true_iff]
    omega
  · simp only [Option.isSome_none, Bool.false_eq_true, false_iff]
    omega
  · simp only [Option.isSome_some, true_iff]
    omega
  · simp only [Option.isSome_none, Bool.false_eq_true, false_iff]
    omega

namespace Machine

/-! ### The accesses of single actions -/

def look (m : Machine) : Access := ⟨m.address, none⟩

/-- Adding an amount stores the sum modulo 256. -/
def addition (amount : Int) (m : Machine) : Access :=
  ⟨m.address, m.cell?.map fun value => (value.toNat + amount) % 256⟩

/-- Reading stores the next byte of the input, if there is one. -/
def intake? (m : Machine) : Option Access :=
  m.input[m.position]?.map fun byte => ⟨m.address, some byte.toNat⟩

/-- An access of this machine is by its pointer, and stores a byte. -/
def Owns (m : Machine) (a : Access) : Prop :=
  a.index = m.address ∧ ∀ value ∈ a.stored, 0 ≤ value ∧ value < 256

theorem look_owned (m : Machine) : m.Owns m.look := ⟨rfl, fun _ mem => by cases mem⟩

theorem addition_owned (m : Machine) (amount : Int) : m.Owns (m.addition amount) := by
  refine ⟨rfl, fun value mem => ?_⟩
  obtain ⟨old, -, rfl⟩ := Option.map_eq_some_iff.mp mem
  exact ⟨Int.emod_nonneg _ (by decide), Int.emod_lt_of_pos _ (by decide)⟩

theorem intake?_owned {m : Machine} {a : Access} (h : a ∈ m.intake?) : m.Owns a := by
  obtain ⟨byte, -, rfl⟩ := Option.map_eq_some_iff.mp h
  refine ⟨rfl, fun value mem => ?_⟩
  cases mem
  have bound := byte.toNat_lt
  omega

/-- On a tape of the same length that agrees at the access, an action does the same, apart from what
the access does to the tape. -/
def Frames (m : Machine) (access : Option Access) (action : Machine → Effect) : Prop :=
  ∀ t : Tape, t.size = m.tape.size → (∀ a ∈ access, t.get? a.index = m.tape.get? a.index) →
    action (m.onto t) = (action m).onto (Access.perform t access)

theorem shift_eq (m : Machine) (offset : Int) :
    m.shift offset =
      if 0 ≤ m.address + offset ∧ m.address + offset < m.tape.size then
        .done { m with address := m.address + offset }
      else
        .fault (.offTape (m.address + offset) m.tape.size) { m with address := m.address + offset } := by
  have here := onTape_iff (m := { m with address := m.address + offset })
  by_cases inside : 0 ≤ m.address + offset ∧ m.address + offset < m.tape.size
  · rw [if_pos inside]
    exact if_pos (here.mpr inside)
  · rw [if_neg inside]
    exact if_neg (mt here.mp inside)

theorem shift_frames (m : Machine) (offset : Int) : m.Frames none (shift offset) := by
  intro t size _
  simp only [shift_eq, onto, size, apply_ite (Effect.onto (Access.perform t none))]
  rfl

theorem forward_frames (m : Machine) (cells : Nat) : m.Frames none (forward cells) := by
  intro t size _
  simp only [forward, onto, size, apply_ite (Effect.onto (Access.perform t none))]
  rfl

theorem back_frames (m : Machine) (cells : Nat) : m.Frames none (back cells) := by
  intro t size _
  simp only [back, onto, size, apply_ite (Effect.onto (Access.perform t none))]
  rfl

theorem write_frames (m : Machine) : m.Frames (some m.look) write := by
  intro t _ agree
  have same : (m.onto t).cell? = m.cell? := agree _ rfl
  simp only [write, same]
  split <;> rfl

/-- Whether a cell can be stored in depends on the length of the tape only. -/
theorem store_onto {m : Machine} {t : Tape} (size : t.size = m.tape.size) {byte : UInt8} {value : Int}
    (same : byte = UInt8.ofInt value) :
    (m.onto t).store byte =
      (m.store byte).onto (Access.perform t (some ⟨m.address, some value⟩)) := by
  subst same
  obtain ⟨address, tape, input, position, output⟩ := m
  have slots : (tape.slot? address).isSome = (t.slot? address).isSome := by
    rw [Tape.isSome_slot?, Tape.isSome_slot?, size]
  cases old : tape.slot? address with
  | none =>
      have new : t.slot? address = none := by
        rwa [old, eq_comm, Option.isSome_none, Option.isSome_eq_false_iff, Option.isNone_iff_eq_none]
          at slots
      simp only [store, onto, old, new, Effect.onto, Access.perform, Tape.set?, Option.getD_none]
  | some i =>
      obtain ⟨j, new⟩ : ∃ j, t.slot? address = some j := by
        rwa [old, Option.isSome_some, eq_comm, Option.isSome_iff_exists] at slots
      simp only [store, onto, old, new, Effect.onto, Access.perform, Tape.set?, Option.getD_some]

theorem ofInt_toNat (byte : UInt8) : byte = UInt8.ofInt byte.toNat := by
  have bound := byte.toNat_lt
  apply UInt8.toNat.inj
  simp only [UInt8.ofInt, UInt8.toNat_ofNat']
  omega

theorem ofInt_sum (value : UInt8) (amount : Int) :
    value + UInt8.ofInt amount = UInt8.ofInt ((value.toNat + amount) % 256) := by
  apply UInt8.toNat.inj
  simp only [UInt8.ofInt, UInt8.toNat_add, UInt8.toNat_ofNat']
  omega

theorem add_frames (m : Machine) (amount : Int) :
    m.Frames (some (m.addition amount)) (add (UInt8.ofInt amount)) := by
  intro t size agree
  have same : (m.onto t).cell? = m.cell? := agree _ rfl
  cases cell : m.cell? with
  | none => simp only [add, same, cell, addition, Option.map_none, Effect.onto, Access.perform]; rfl
  | some value =>
      simp only [add, same, cell, addition, Option.map_some]
      exact store_onto size (ofInt_sum value amount)

theorem read_frames (m : Machine) : m.Frames m.intake? read := by
  intro t size _
  by_cases left : m.position < m.input.size
  · have left' : (m.onto t).position < (m.onto t).input.size := left
    have byte : m.input[m.position]? = some m.input[m.position] := Array.getElem?_eq_getElem left
    simp only [read, intake?, byte, Option.map_some, dif_pos left, dif_pos left']
    exact store_onto (m := { m with position := m.position + 1 }) size (ofInt_toNat _)
  · have left' : ¬(m.onto t).position < (m.onto t).input.size := left
    have spent : m.input[m.position]? = none := Array.getElem?_eq_none (Nat.le_of_not_lt left)
    simp only [intake?, spent, Option.map_none, read, dif_neg left, dif_neg left']
    rfl

/-! ### One-sided tests suffice on the tape -/

theorem forward_safe {m : Machine} (h : m.onTape) (cells : Nat) :
    (m.forward cells).Safe m.tape.size := by
  obtain ⟨low, -⟩ := onTape_iff.mp h
  have before : 0 ≤ m.address + cells := by omega
  simp only [forward]
  split
  · next high => exact ⟨onTape_iff.mpr ⟨before, high⟩, rfl⟩
  · next high => exact ⟨rfl, fun on => high (onTape_iff.mp on).2, rfl⟩

theorem back_safe {m : Machine} (h : m.onTape) (cells : Nat) : (m.back cells).Safe m.tape.size := by
  obtain ⟨-, high⟩ := onTape_iff.mp h
  have inside : m.address - cells < m.tape.size := by omega
  simp only [back]
  split
  · next low => exact ⟨onTape_iff.mpr ⟨low, inside⟩, rfl⟩
  · next low => exact ⟨rfl, fun on => low (onTape_iff.mp on).1, rfl⟩

end Machine

/-- On the tape, accesses by the pointer are inside. -/
theorem Engine.confined_of_owned {σ : Type} {e : Engine σ} {s : σ} (on : (e.machine s).onTape)
    (owned : ∀ a ∈ e.access? s, (e.machine s).Owns a)
    (frame : ∀ t : Tape, t.size = (e.machine s).tape.size →
      (∀ a ∈ e.access? s, t.get? a.index = (e.machine s).tape.get? a.index) →
      e.step (e.onto t s) = e.stepOnto (Access.perform t (e.access? s)) (e.step s)) :
    e.Confined (e.machine s).tape.size s := by
  refine ⟨rfl, ?_, fun a mem => (owned a mem).2, frame⟩
  intro a mem
  rw [(owned a mem).1]
  exact Machine.onTape_iff.mp on

/-! ### Walking -/

namespace Walk

def access? : Walk → Option Access
  | ⟨.stop, [], _⟩ => none
  | ⟨.stop, _ :: _, m⟩ => some m.look
  | ⟨.loop _ _, _, m⟩ => some m.look
  | ⟨.move _ _, _, _⟩ => none
  | ⟨.add delta _, _, m⟩ => some (m.addition delta.value)
  | ⟨.output _, _, m⟩ => some m.look
  | ⟨.input _, _, m⟩ => m.intake?

def engine : Engine Walk where
  step := step
  machine := machine
  onto t w := { w with machine := w.machine.onto t }
  access? := access?

theorem access?_owned {w : Walk} {a : Access} (h : a ∈ w.access?) : w.machine.Owns a := by
  obtain ⟨node, loops, m⟩ := w
  cases node with
  | stop =>
      cases loops with
      | nil => cases h
      | cons loop outer =>
          cases h
          exact m.look_owned
  | loop body next =>
      cases h
      exact m.look_owned
  | move offset next => cases h
  | add delta next =>
      cases h
      exact m.addition_owned delta.value
  | output next =>
      cases h
      exact m.look_owned
  | input next => exact Machine.intake?_owned h

theorem proceed_onto (next : Chain) (loops : List Entered) (t : Tape) (e : Effect) :
    proceed next loops (e.onto t) = engine.stepOnto t (proceed next loops e) := by
  cases e <;> rfl

theorem step_frame (w : Walk) (t : Tape) (size : t.size = w.machine.tape.size)
    (agree : ∀ a ∈ w.access?, t.get? a.index = w.machine.tape.get? a.index) :
    step (engine.onto t w) = engine.stepOnto (Access.perform t w.access?) (step w) := by
  obtain ⟨node, loops, m⟩ := w
  have acts {next : Chain} {access : Option Access} {action : Machine → Effect}
      (frames : m.Frames access action)
      (agree : ∀ a ∈ access, t.get? a.index = m.tape.get? a.index) :
      proceed next loops (action (m.onto t)) =
        engine.stepOnto (Access.perform t access) (proceed next loops (action m)) := by
    rw [frames t size agree, proceed_onto]
  have test (here : ∀ a ∈ some m.look, t.get? a.index = m.tape.get? a.index) :
      (m.onto t).cell? = m.cell? := here _ rfl
  cases node with
  | stop =>
      cases loops with
      | nil => rfl
      | cons loop outer =>
          simp only [engine, step, test agree]
          cases m.cell? with
          | none => rfl
          | some value => by_cases zero : value = 0 <;> simp only [zero, if_true, if_false] <;> rfl
  | loop body next =>
      simp only [engine, step, test agree]
      cases m.cell? with
      | none => rfl
      | some value => by_cases zero : value = 0 <;> simp only [zero, if_true, if_false] <;> rfl
  | move offset next => exact acts (m.shift_frames offset.value) agree
  | add delta next => exact acts (m.add_frames delta.value) agree
  | output next => exact acts m.write_frames agree
  | input next => exact acts m.read_frames agree

theorem confined {n : Nat} {w : Walk} (on : w.OnTape n) : engine.Confined n w := by
  obtain ⟨on, rfl⟩ := on
  exact Engine.confined_of_owned on (fun _ => access?_owned) (step_frame w)

end Walk

/-! ### Calling the routine -/

namespace Activity

def access? : Activity → Option Access
  | ⟨.done, _, _⟩ => none
  | ⟨.forward _ _, _, _⟩ => none
  | ⟨.back _ _, _, _⟩ => none
  | ⟨.add delta _, _, m⟩ => some (m.addition delta.toNat)
  | ⟨.write _, _, m⟩ => some m.look
  | ⟨.read _ _, _, m⟩ => m.intake?
  | ⟨.loop _ _, _, m⟩ => some m.look
  | ⟨.call _ _, _, _⟩ => none

def engine (r : Routine) : Engine Activity where
  step := step r
  machine := machine
  onto t a := { a with machine := a.machine.onto t }
  access? := access?

def OnTape (n : Nat) (a : Activity) : Prop := a.machine.onTape ∧ a.machine.tape.size = n

theorem access?_owned {s : Activity} {a : Access} (h : a ∈ s.access?) : s.machine.Owns a := by
  obtain ⟨code, pending, m⟩ := s
  cases code with
  | done => cases h
  | forward cells rest => cases h
  | back cells rest => cases h
  | add delta rest =>
      cases h
      exact m.addition_owned delta.toNat
  | write rest =>
      cases h
      exact m.look_owned
  | read exit rest => exact Machine.intake?_owned h
  | loop body rest =>
      cases h
      exact m.look_owned
  | call helper rest => cases h

variable {r : Routine}

theorem proceed_onto (rest : Code) (pending : List Pending) (t : Tape) (e : Effect) :
    proceed rest pending (e.onto t) = (engine r).stepOnto t (proceed rest pending e) := by
  cases e <;> rfl

theorem leave_onto (t : Tape) (m : Machine) (pending : List Pending) :
    leave (m.onto t) pending = (engine r).stepOnto t (leave m pending) := by
  induction pending with
  | nil => rfl
  | cons frame outer ih =>
      cases frame with
      | loop body rest => exact ih
      | call rest => rfl

theorem halt_onto (guarded : Bool) (t : Tape) (m : Machine) :
    halt guarded (m.onto t) = (engine r).stepOnto t (halt guarded m) := by
  cases guarded <;> rfl

theorem step_frame (a : Activity) (t : Tape) (size : t.size = a.machine.tape.size)
    (agree : ∀ x ∈ a.access?, t.get? x.index = a.machine.tape.get? x.index) :
    step r ((engine r).onto t a) = (engine r).stepOnto (Access.perform t a.access?) (step r a) := by
  obtain ⟨code, pending, m⟩ := a
  have acts {rest : Code} {access : Option Access} {action : Machine → Effect}
      (frames : m.Frames access action)
      (agree : ∀ x ∈ access, t.get? x.index = m.tape.get? x.index) :
      proceed rest pending (action (m.onto t)) =
        (engine r).stepOnto (Access.perform t access) (proceed rest pending (action m)) := by
    rw [frames t size agree, proceed_onto]
  cases code with
  | done =>
      cases pending with
      | nil => rfl
      | cons frame outer => cases frame <;> rfl
  | forward cells rest => exact acts (m.forward_frames cells) agree
  | back cells rest => exact acts (m.back_frames cells) agree
  | add delta rest =>
      have frames := m.add_frames delta.toNat
      rw [← Machine.ofInt_toNat] at frames
      exact acts frames agree
  | write rest => exact acts m.write_frames agree
  | read exit rest =>
      have frames := m.read_frames t size agree
      simp only [engine, step, access?, frames]
      cases hm : m.read with
      | done m' => rfl
      | fault f m' => rfl
      | dry m' =>
          cases exit with
          | leave => exact leave_onto _ m' pending
          | signal => exact halt_onto r.guarded _ m'
  | loop body rest =>
      have same : (m.onto t).cell? = m.cell? := agree _ rfl
      simp only [engine, step, same]
      cases m.cell? with
      | none => rfl
      | some value => by_cases zero : value = 0 <;> simp only [zero, if_true, if_false] <;> rfl
  | call number rest =>
      simp only [engine, step]
      cases r.helper? number <;> rfl

theorem confined {n : Nat} {a : Activity} (on : a.OnTape n) : (engine r).Confined n a := by
  obtain ⟨on, rfl⟩ := on
  exact Engine.confined_of_owned on (fun _ => access?_owned) (step_frame a)

theorem proceed_safe {n : Nat} (rest : Code) (pending : List Pending) {e : Effect}
    (safe : e.Safe n) : (proceed rest pending e).Gives (OnTape n) (Outcome.Safe n) := by
  cases e with
  | done m => exact safe
  | dry m => exact ⟨safe.2, safe.1⟩
  | fault f m => exact ⟨safe.2.2, safe.1, safe.2.1⟩

/-- One statement keeps the routine on the tape or reports the move that leaves it. -/
theorem step_safe {c : Chain} (serves : r.Serves c) {n : Nat} (a : Activity) (placed : a.Placed r)
    (on : a.OnTape n) : (step r a).Gives (OnTape n) (Outcome.Safe n) := by
  obtain ⟨code, pending, m⟩ := a
  obtain ⟨exit, ⟨plain, inlines⟩, waiting⟩ := placed
  obtain ⟨on, rfl⟩ := on
  obtain ⟨value, hv⟩ := Machine.cell?_of_onTape on
  cases inlines with
  | done =>
      cases waiting with
      | nil => exact ⟨rfl, on⟩
      | loop _ _ _ => exact ⟨on, rfl⟩
      | call _ _ _ => exact ⟨on, rfl⟩
  | forward cells _ => exact proceed_safe _ pending (Machine.forward_safe on cells)
  | back cells _ => exact proceed_safe _ pending (Machine.back_safe on cells)
  | add delta _ => exact proceed_safe _ pending (Machine.add_safe on delta)
  | write _ => exact proceed_safe _ pending (Machine.write_safe on)
  | read _ =>
      have safe := Machine.read_safe on
      cases hm : m.read with
      | done m' =>
          rw [hm] at safe
          simp only [step, hm]
          exact safe
      | fault f m' =>
          rw [hm] at safe
          simp only [step, hm]
          exact ⟨safe.2.2, safe.1, safe.2.1⟩
      | dry m' =>
          cases Machine.eq_of_read_dry hm
          rw [waiting.step_dry _ hm]
          exact ⟨rfl, on⟩
  | loop _ _ =>
      simp only [step, hv]
      split <;> exact ⟨on, rfl⟩
  | call _ defined _ _ =>
      simp only [step, serves.helper? defined]
      exact ⟨on, rfl⟩

end Activity

section
variable {r : Routine} {c : Chain} {m : Machine}

theorem Routine.Serves.keeps_on_tape (serves : r.Serves c) (n : Nat) (a : Activity)
    (h : a.Placed r ∧ a.OnTape n) :
    (Activity.step r a).Gives (fun a => a.Placed r ∧ a.OnTape n) (Outcome.Safe n) := by
  have placed := Activity.step_placed serves a h.1
  have safe := Activity.step_safe serves a h.1 h.2
  cases hs : Activity.step r a with
  | more a' =>
      rw [hs] at placed safe
      exact ⟨placed, safe⟩
  | ended o =>
      rw [hs] at safe
      exact safe

theorem Routine.Serves.reaches_onTape (serves : r.Serves c) (on : m.onTape) {a : Activity}
    (reached : r.Reaches m a) : a.OnTape m.tape.size := by
  obtain ⟨n, path⟩ := reached
  exact (path.of_invariant (serves.keeps_on_tape m.tape.size) ⟨serves.start_placed, on, rfl⟩).2

theorem Routine.Serves.ends_safe (serves : r.Serves c) (on : m.onTape) {o : Outcome}
    (ends : ∃ fuel, r.run fuel m = some o) : o.Safe m.tape.size :=
  Ends.of_invariant (serves.keeps_on_tape m.tape.size) ⟨serves.start_placed, on, rfl⟩ ends

end

/-- Runs are safe, walked or through a routine with the emitted text. From a pointer on a tape of `n`
cells, every step uses cells below `n` only, by their index from the start, stores bytes only, and
leaves the tape its length; and the run can end in two ways only, with the pointer on the tape, or by
the fault of a move that went off it, which names where the pointer went and `n`. -/
theorem runs_stay_on_tape (x : Executable) (coherent : x.code.Coherent) (r : Routine)
    (emitted : r.text = x.routine.text) (m : Machine) (low : 0 ≤ m.address)
    (high : m.address < m.tape.size) :
    (∀ k w, Steps Walk.step k ⟨x.chain, [], m⟩ w → Walk.engine.Confined m.tape.size w) ∧
      (∀ a, r.Reaches m a → (Activity.engine r).Confined m.tape.size a) ∧
      (∀ o, (∃ fuel, r.run fuel m = some o) → o.Safe m.tape.size) ∧
      ∀ o, (∃ fuel, x.enter fuel m = some o) → o.Safe m.tape.size := by
  have on : m.onTape = true := Machine.onTape_iff.mpr ⟨low, high⟩
  have serves : x.routine.Serves x.chain := x.code.routine_serves coherent x.config
  rw [Routine.eq_of_text emitted]
  refine ⟨fun k w path => ?_, fun a reached => ?_, fun o => serves.ends_safe on, fun o ends => ?_⟩
  · exact Walk.confined (path.of_invariant Walk.step_safe ⟨on, rfl⟩)
  · exact Activity.confined (serves.reaches_onTape on reached)
  · unfold Executable.enter Executable.entry at ends
    cases hb : x.config.backend with
    | interpreted =>
        rw [hb] at ends
        exact Walk.ends_safe (w := ⟨x.chain, [], m⟩) on ends
    | compiled =>
        rw [hb] at ends
        exact serves.ends_safe on ends

/-- One below zero is stored as 255, in the last cell, and a move of five cells from there is a fault
that names cell 6. -/
theorem wrapping_run_stays_on_tape :
    let code := Linked.fresh (.move (.encode 1) (.add (.encode (-1)) (.move (.encode 5) .stop)))
    let r : Routine :=
      { helpers := [], guarded := false, body := .forward 1 (.add 255 (.forward 5 .done)) }
    (code.Coherent ∧ r.text = (code.routine { backend := .interpreted }).text) ∧
      (Walk.access? ⟨.add (.encode (-1)) (.move (.encode 5) .stop), [],
          ⟨1, ⟨#[5, 0]⟩, #[], 0, #[]⟩⟩ = some ⟨1, some 255⟩ ∧
        Walk.engine.Confined 2
          ⟨.add (.encode (-1)) (.move (.encode 5) .stop), [], ⟨1, ⟨#[5, 0]⟩, #[], 0, #[]⟩⟩) ∧
      (Activity.access? ⟨.add 255 (.forward 5 .done), [], ⟨1, ⟨#[5, 0]⟩, #[], 0, #[]⟩⟩ =
          some ⟨1, some 255⟩ ∧
        (Activity.engine r).Confined 2
          ⟨.add 255 (.forward 5 .done), [], ⟨1, ⟨#[5, 0]⟩, #[], 0, #[]⟩⟩) ∧
      Outcome.Safe 2 ⟨.fault (.offTape 6 2), ⟨6, ⟨#[5, 255]⟩, #[], 0, #[]⟩⟩ := by
  intro code r
  have shallow : code.needsHelpers { backend := .interpreted } = false := by
    rw [Linked.needsHelpers, Chain.depth_eq_nesting]
    rfl
  have text : r.text = (code.routine { backend := .interpreted }).text := by
    simp only [Linked.routine, shallow]
    rfl
  obtain ⟨walked, called, -, ends⟩ := runs_stay_on_tape ⟨code, { backend := .interpreted }⟩
    (Linked.fresh_coherent _) r text ⟨0, ⟨#[5, 0]⟩, #[], 0, #[]⟩ (by decide) (by decide)
  exact ⟨⟨Linked.fresh_coherent _, text⟩, ⟨by decide, walked 1 _ (.more rfl (.refl _))⟩,
    ⟨by decide, called _ ⟨1, .more rfl (.refl _)⟩⟩, ends _ ⟨3, by decide⟩⟩

end TapeChain
