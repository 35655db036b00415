import TapeChain.Proofs.Lockstep
import TapeChain.Session

/-! Input that has not come yet. A run cannot look ahead: appended input changes nothing up to the
read that finds the input used up, and that read does nothing else. So a run that ends otherwise ends
alike on every longer input, and a run that ends there is the beginning of the run on every longer
input. -/
namespace TapeChain

/-! ### No action but a read that finds no input notices what is appended -/

namespace Machine

theorem shift_feed (m : Machine) (more : Bytes) (offset : Int) :
    (m.feed more).shift offset = (m.shift offset).map (feed more) := by
  simp only [shift, apply_ite (Effect.map (feed more))]
  rfl

theorem forward_feed (m : Machine) (more : Bytes) (cells : Nat) :
    (m.feed more).forward cells = (m.forward cells).map (feed more) := by
  simp only [forward, apply_ite (Effect.map (feed more))]
  rfl

theorem back_feed (m : Machine) (more : Bytes) (cells : Nat) :
    (m.feed more).back cells = (m.back cells).map (feed more) := by
  simp only [back, apply_ite (Effect.map (feed more))]
  rfl

theorem store_feed (m : Machine) (more : Bytes) (value : UInt8) :
    (m.feed more).store value = (m.store value).map (feed more) := by
  obtain ⟨address, tape, input, position, output⟩ := m
  simp only [store, feed]
  cases tape.slot? address <;> rfl

theorem cell?_feed (m : Machine) (more : Bytes) : (m.feed more).cell? = m.cell? := rfl

theorem add_feed (m : Machine) (more : Bytes) (delta : UInt8) :
    (m.feed more).add delta = (m.add delta).map (feed more) := by
  simp only [add, cell?_feed, store_feed]
  cases m.cell? <;> rfl

theorem write_feed (m : Machine) (more : Bytes) :
    (m.feed more).write = m.write.map (feed more) := by
  simp only [write, cell?_feed]
  cases m.cell? <;> rfl

/-- While there is input, what comes behind it is not looked at. -/
theorem read_feed {m : Machine} (more : Bytes) (left : m.position < m.input.size) :
    (m.feed more).read = m.read.map (feed more) := by
  have left' : (m.feed more).position < (m.feed more).input.size := by
    simp only [feed, Array.size_append]
    exact Nat.lt_add_right _ left
  have same : (m.input ++ more)[m.position] = m.input[m.position] := Array.getElem_append_left left
  simp only [read, dif_pos left, dif_pos left']
  rw [← store_feed]
  exact congrArg (fun value => store value _) same

theorem feed_unnoticed (more : Bytes) :
    Unnoticed (feed more) (fun _ => True) (fun ending => ending = .exhausted) where
  address _ _ := rfl
  cell m _ := m.cell?_feed more
  shift m _ offset := m.shift_feed more offset ▸ Effect.carried_map (fun _ _ => trivial) _
  forward m _ cells := m.forward_feed more cells ▸ Effect.carried_map (fun _ _ => trivial) _
  back m _ cells := m.back_feed more cells ▸ Effect.carried_map (fun _ _ => trivial) _
  add m _ delta := m.add_feed more delta ▸ Effect.carried_map (fun _ _ => trivial) _
  write m _ := m.write_feed more ▸ Effect.carried_map (fun _ _ => trivial) _
  read m _ := by
    by_cases left : m.position < m.input.size
    · rw [read_feed more left]
      exact Effect.carried_map (fun _ _ => trivial) _
    · rw [read_of_used_up (Nat.le_of_not_lt left)]
      exact .inl rfl

end Machine

/-! ### What a run does to input and output -/

/-- A later machine of the same run: the input is the same, the position is still inside it, and the
output has only grown. -/
structure Machine.Onward (m later : Machine) : Prop where
  input : later.input = m.input
  position : m.position ≤ m.input.size → later.position ≤ m.input.size
  output : m.output.toList <+: later.output.toList

theorem Machine.Onward.refl (m : Machine) : m.Onward m := ⟨rfl, id, List.prefix_rfl⟩

theorem Machine.Onward.trans {m m' m'' : Machine} (h : m.Onward m') (h' : m'.Onward m'') :
    m.Onward m'' := by
  obtain ⟨input, position, output⟩ := h
  obtain ⟨input', position', output'⟩ := h'
  rw [input] at input' position'
  exact ⟨input', fun inside => position' (position inside), output.trans output'⟩

/-- Only a read that finds the input used up runs dry, and it does nothing. -/
def Effect.Onward (m : Machine) : Effect → Prop
  | .done m' => m.Onward m'
  | .dry m' => m' = m ∧ m.input.size ≤ m.position
  | .fault _ m' => m.Onward m'

def Outcome.Onward (m : Machine) (o : Outcome) : Prop :=
  m.Onward o.machine ∧ (o.ending = .exhausted → o.machine = m ∧ m.input.size ≤ m.position)

theorem Outcome.onward_finished (m : Machine) : Outcome.Onward m ⟨.finished, m⟩ := by
  refine ⟨.refl m, ?_⟩
  intro same
  cases same

theorem Outcome.onward_fault {m m' : Machine} (h : m.Onward m') (f : Fault) :
    Outcome.Onward m ⟨.fault f, m'⟩ := by
  refine ⟨h, ?_⟩
  intro same
  cases same

namespace Machine

theorem shift_onward (m : Machine) (offset : Int) : (m.shift offset).Onward m := by
  simp only [shift]
  split <;> exact ⟨rfl, id, List.prefix_rfl⟩

theorem forward_onward (m : Machine) (cells : Nat) : (m.forward cells).Onward m := by
  simp only [forward]
  split <;> exact ⟨rfl, id, List.prefix_rfl⟩

theorem back_onward (m : Machine) (cells : Nat) : (m.back cells).Onward m := by
  simp only [back]
  split <;> exact ⟨rfl, id, List.prefix_rfl⟩

theorem store_onward (m : Machine) (value : UInt8) : (m.store value).Onward m := by
  simp only [store]
  split <;> exact ⟨rfl, id, List.prefix_rfl⟩

theorem add_onward (m : Machine) (delta : UInt8) : (m.add delta).Onward m := by
  simp only [add]
  split
  · exact m.store_onward _
  · exact .refl m

theorem write_onward (m : Machine) : m.write.Onward m := by
  simp only [write]
  split
  · refine ⟨rfl, id, ?_⟩
    rw [Array.toList_push]
    exact List.prefix_append _ _
  · exact .refl m

theorem read_onward (m : Machine) : m.read.Onward m := by
  simp only [read]
  split
  · next left =>
      simp only [store]
      split <;> exact ⟨rfl, fun _ => left, List.prefix_rfl⟩
  · next used => exact ⟨rfl, Nat.le_of_not_lt used⟩

end Machine

/-- A step, seen from the machine before it. -/
def Progress.Onward {σ : Type} (machine : σ → Machine) (m : Machine) (p : Progress σ) : Prop :=
  p.Gives (fun s => m.Onward (machine s)) (Outcome.Onward m)

section
variable {σ : Type} {step : σ → Progress σ} {machine : σ → Machine} {s t : σ} {o : Outcome}

theorem Progress.onward_test {m : Machine} {onZero otherwise : σ} (zero : machine onZero = m)
    (other : machine otherwise = m) :
    Progress.Onward machine m
      (match m.cell? with
        | none => .ended ⟨.fault (.noCell m.address), m⟩
        | some value => if value = 0 then .more onZero else .more otherwise) := by
  cases m.cell? with
  | none => exact Outcome.onward_fault (.refl m) _
  | some value =>
      by_cases here : value = 0
      · simp only [if_pos here]
        exact zero ▸ .refl m
      · simp only [if_neg here]
        exact other ▸ .refl m

/-- The steps of a run add up. -/
theorem Steps.onward (keeps : ∀ s, (step s).Onward machine (machine s)) {n : Nat}
    (path : Steps step n s t) : (machine s).Onward (machine t) := by
  induction path with
  | refl s => exact .refl _
  | @more _ s _ _ first _ ih =>
      have gives := keeps s
      rw [first] at gives
      exact Machine.Onward.trans gives ih

theorem Ends.onward (keeps : ∀ s, (step s).Onward machine (machine s)) (ends : Ends step s o) :
    (machine s).Onward o.machine := by
  obtain ⟨n, t, path, last⟩ := ends.last
  have gives := keeps t
  rw [last] at gives
  exact (path.onward keeps).trans gives.1

/-- A run that ends for want of input ends with the machine of its last state, whose input is used
up. -/
theorem Ends.used_up (keeps : ∀ s, (step s).Onward machine (machine s)) {m : Machine}
    (ends : Ends step s ⟨.exhausted, m⟩) :
    ∃ n t, Steps step n s t ∧ machine t = m ∧ m.input.size ≤ m.position := by
  obtain ⟨n, t, path, last⟩ := ends.last
  have gives := keeps t
  rw [last] at gives
  obtain ⟨same, used⟩ := gives.2 rfl
  subst same
  exact ⟨n, t, path, rfl, used⟩

end

namespace Walk

theorem proceed_onward {m : Machine} (next : Chain) (loops : List Entered) {e : Effect}
    (h : e.Onward m) : (proceed next loops e).Onward machine m := by
  cases e with
  | done m' => exact h
  | dry m' =>
      obtain ⟨rfl, used⟩ := h
      exact ⟨.refl m', fun _ => ⟨rfl, used⟩⟩
  | fault f m' => exact Outcome.onward_fault h f

theorem step_onward (w : Walk) : (step w).Onward machine w.machine := by
  obtain ⟨node, loops, m⟩ := w
  cases node with
  | stop =>
      cases loops with
      | nil => exact Outcome.onward_finished m
      | cons loop outer => exact Progress.onward_test rfl rfl
  | loop body next => exact Progress.onward_test rfl rfl
  | move offset next => exact proceed_onward next loops (m.shift_onward offset.value)
  | add delta next => exact proceed_onward next loops (m.add_onward delta.byte)
  | output next => exact proceed_onward next loops m.write_onward
  | input next => exact proceed_onward next loops m.read_onward

end Walk

namespace Activity

theorem proceed_onward {m : Machine} (rest : Code) (pending : List Pending) {e : Effect}
    (h : e.Onward m) : (proceed rest pending e).Onward machine m := by
  cases e with
  | done m' => exact h
  | dry m' =>
      obtain ⟨rfl, used⟩ := h
      exact ⟨.refl m', fun _ => ⟨rfl, used⟩⟩
  | fault f m' => exact Outcome.onward_fault h f

theorem leave_onward {m : Machine} (used : m.input.size ≤ m.position) (pending : List Pending) :
    (leave m pending).Onward machine m := by
  induction pending with
  | nil => exact ⟨.refl m, fun _ => ⟨rfl, used⟩⟩
  | cons frame outer ih =>
      cases frame with
      | loop body rest => exact ih
      | call rest => exact .refl m

theorem halt_onward {m : Machine} (used : m.input.size ≤ m.position) (guarded : Bool) :
    (halt guarded m).Onward machine m := by
  cases guarded with
  | true => exact ⟨.refl m, fun _ => ⟨rfl, used⟩⟩
  | false => exact Outcome.onward_fault (.refl m) _

theorem step_onward (r : Routine) (a : Activity) : (step r a).Onward machine a.machine := by
  obtain ⟨code, pending, m⟩ := a
  cases code with
  | done =>
      cases pending with
      | nil => exact Outcome.onward_finished m
      | cons frame outer => cases frame <;> exact .refl m
  | forward cells rest => exact proceed_onward rest pending (m.forward_onward cells)
  | back cells rest => exact proceed_onward rest pending (m.back_onward cells)
  | add delta rest => exact proceed_onward rest pending (m.add_onward delta)
  | write rest => exact proceed_onward rest pending m.write_onward
  | read exit rest =>
      have onward := m.read_onward
      simp only [step]
      cases hm : m.read with
      | done m' =>
          rw [hm] at onward
          exact proceed_onward rest pending onward
      | fault f m' =>
          rw [hm] at onward
          exact proceed_onward rest pending onward
      | dry m' =>
          rw [hm] at onward
          obtain ⟨rfl, used⟩ := onward
          cases exit with
          | leave => exact leave_onward used pending
          | signal => exact halt_onward used r.guarded
  | loop body rest => exact Progress.onward_test rfl rfl
  | call number rest =>
      simp only [step]
      cases r.helper? number with
      | none => exact Outcome.onward_fault (.refl m) _
      | some helper => exact .refl m

end Activity

namespace Entry

variable {e : Entry} {m m' : Machine} {fuel : Nat} {o : Outcome}

theorem passes_start (e : Entry) (m : Machine) : e.Passes m m := by
  cases e with
  | walk c => exact ⟨0, _, .refl _, rfl⟩
  | call r => exact ⟨_, ⟨0, .refl _⟩, rfl⟩

/-- From wherever a run comes through, it goes on to its end. -/
theorem onward_of_passes (passed : e.Passes m m') (run : e.start fuel m = some o) :
    m'.Onward o.machine := by
  cases e with
  | walk c =>
      obtain ⟨n, w, path, rfl⟩ := passed
      exact Ends.onward Walk.step_onward (path.ends_iff.mp ⟨fuel, run⟩)
  | call r =>
      obtain ⟨a, ⟨n, path⟩, rfl⟩ := passed
      exact Ends.onward (Activity.step_onward r) (path.ends_iff.mp ⟨fuel, run⟩)

theorem onward_of_start (run : e.start fuel m = some o) : m.Onward o.machine :=
  onward_of_passes (e.passes_start m) run

theorem passes_of_exhausted (run : e.start fuel m = some ⟨.exhausted, m'⟩) :
    e.Passes m m' ∧ m'.input.size ≤ m'.position := by
  cases e with
  | walk c =>
      obtain ⟨n, w, path, same, used⟩ := Ends.used_up Walk.step_onward ⟨fuel, run⟩
      exact ⟨⟨n, w, path, same⟩, used⟩
  | call r =>
      obtain ⟨n, a, path, same, used⟩ := Ends.used_up (Activity.step_onward r) ⟨fuel, run⟩
      exact ⟨⟨a, ⟨n, path⟩, same⟩, used⟩

end Entry

/-! ### Longer input -/

/-- A run comes to a machine on its way or in the end. -/
def Executable.Comes (x : Executable) (m m' : Machine) : Prop :=
  x.entry.Passes m m' ∨ ∃ fuel ending, x.enter fuel m = some ⟨ending, m'⟩

namespace Executable

variable {x : Executable} {m m' : Machine} {fuel : Nat}

/-- What a run has come to when it ends for want of input: all of the input is used. -/
theorem position_of_exhausted (run : x.enter fuel m = some ⟨.exhausted, m'⟩)
    (inside : m.position ≤ m.input.size) : m'.position = m.input.size := by
  have onward := Entry.onward_of_start run
  have used := (Entry.passes_of_exhausted run).2
  rw [onward.input] at used
  exact Nat.le_antisymm (onward.position inside) used

theorem Comes.feed (coherent : x.code.Coherent) (more : Bytes) (h : x.Comes m m') :
    x.Comes (m.feed more) (m'.feed more) := by
  have repeats := entry_repeats coherent (Machine.feed_unnoticed more) (m := m) trivial
  rcases h with passed | ⟨fuel, ending, run⟩
  · exact .inl (repeats.passes m' passed)
  · rcases repeats.ends fuel _ run with dry | ended
    · change ending = .exhausted at dry
      subst dry
      exact .inl (repeats.passes m' (Entry.passes_of_exhausted run).1)
    · exact .inr ⟨fuel, ending, ended⟩

/-- Output is never taken back. -/
theorem Comes.output_grows (h : x.Comes m m') {o : Outcome} (run : x.enter fuel m = some o) :
    m'.output.toList <+: o.machine.output.toList := by
  rcases h with passed | ⟨fuel', ending, run'⟩
  · exact (Entry.onward_of_passes passed run).output
  · obtain rfl := Entry.start_unique run run'
    exact List.prefix_rfl

end Executable

/-- A run cannot look ahead in its input, whatever the engine and wherever it starts. If it ends
otherwise than by a read that found no input, it ends alike on every longer input, with the same
pointer, tape, output and position. If it ends by such a read, then all of the input is used, and the
run on a longer input comes through the very machine it ended with. A run without end has none on a
longer input. In all cases the run on a longer input comes wherever the run comes, and what it has
written in the end starts with what the run has written. -/
theorem longer_input_repeats_run (x : Executable) (coherent : x.code.Coherent) (m : Machine)
    (more : Bytes) :
    (∀ ending m', ending ≠ .exhausted → (∃ fuel, x.enter fuel m = some ⟨ending, m'⟩) →
        ∃ fuel, x.enter fuel (m.feed more) = some ⟨ending, m'.feed more⟩) ∧
      (∀ m', (∃ fuel, x.enter fuel m = some ⟨.exhausted, m'⟩) →
        (m.position ≤ m.input.size → m'.position = m.input.size) ∧
          x.entry.Passes (m.feed more) (m'.feed more)) ∧
      ((∀ fuel, x.enter fuel m = none) → ∀ fuel, x.enter fuel (m.feed more) = none) ∧
      (∀ m', x.Comes m m' → x.Comes (m.feed more) (m'.feed more)) ∧
      ∀ m' o, x.Comes m m' → (∃ fuel, x.enter fuel (m.feed more) = some o) →
        m'.output.toList <+: o.machine.output.toList := by
  have repeats := Executable.entry_repeats coherent (Machine.feed_unnoticed more) (m := m) trivial
  refine ⟨?_, ?_, ?_, ?_, ?_⟩
  · rintro ending m' regular ⟨fuel, run⟩
    exact ⟨fuel, (repeats.ends fuel _ run).resolve_left regular⟩
  · rintro m' ⟨fuel, run⟩
    exact ⟨Executable.position_of_exhausted run,
      repeats.passes m' (Entry.passes_of_exhausted run).1⟩
  · intro forever fuel
    exact repeats.lasts fuel (forever fuel)
  · intro m' comes
    exact comes.feed coherent more
  · rintro m' o comes ⟨fuel, run⟩
    exact (comes.feed coherent more).output_grows run

/-- A read in a helper that a helper calls finds no input after one byte; with a further byte the run
goes on from there and ends. -/
theorem nested_read_repeats_run :
    let x : Executable :=
      ⟨.fresh (.loop (.loop (.input (.output .stop)) .stop) .stop), { inlineDepth := 1 }⟩
    let m : Machine := ⟨0, ⟨#[1]⟩, #[7], 0, #[]⟩
    let m' : Machine := ⟨0, ⟨#[7]⟩, #[7], 1, #[7]⟩
    let o : Outcome := ⟨.finished, ⟨0, ⟨#[0]⟩, #[7, 0], 2, #[7, 0]⟩⟩
    x.code.Coherent ∧ (∃ fuel, x.enter fuel m = some ⟨.exhausted, m'⟩) ∧ m'.position = m.input.size ∧
      x.entry.Passes (m.feed #[0]) (m'.feed #[0]) ∧ (∃ fuel, x.enter fuel (m.feed #[0]) = some o) ∧
      m'.output.toList <+: o.machine.output.toList ∧
      ∃ fuel, x.enter fuel (m.feed #[0, 5]) = some { o with machine := o.machine.feed #[5] } := by
  intro x m m' o
  have coherent : x.code.Coherent := Linked.fresh_coherent _
  have short : ∃ fuel, x.enter fuel m = some ⟨.exhausted, m'⟩ :=
    (x.code.routine_ends_iff_plain coherent x.config m _).mpr ⟨8, rfl⟩
  have long : ∃ fuel, x.enter fuel (m.feed #[0]) = some o :=
    (x.code.routine_ends_iff_plain coherent x.config _ _).mpr ⟨13, rfl⟩
  obtain ⟨-, dry, -, -, grows⟩ := longer_input_repeats_run x coherent m #[0]
  obtain ⟨ends, -⟩ := longer_input_repeats_run x coherent (m.feed #[0]) #[5]
  obtain ⟨position, passes⟩ := dry m' short
  obtain ⟨fuel, run⟩ := short
  exact ⟨coherent, ⟨fuel, run⟩, position (by decide), passes, long,
    grows m' o (.inr ⟨fuel, .exhausted, run⟩) long, ends .finished _ nofun long⟩

end TapeChain
