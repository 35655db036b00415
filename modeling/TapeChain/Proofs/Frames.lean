import TapeChain.Proofs.Legibility

/-! A routine in the middle of its run. Every open call waits under the guard; inside a call a read
that finds no input signals, and outside it leaves. So such a read ends the whole run wherever it
stands, and nothing is ever raised but what the statements themselves raise. With hoisting invisible,
a run shows neither the budget nor which nodes were shared. -/
namespace TapeChain

/-- What the statements of a chain can raise: a move that went off the tape, or the use of a cell
that is not there. -/
def Fault.Ordinary (m : Machine) (f : Fault) : Prop :=
  f = .offTape m.address m.tape.size ∨ f = .noCell m.address

def Effect.Ordinary : Effect → Prop
  | .done _ => True
  | .dry _ => True
  | .fault f m => f.Ordinary m

def Outcome.Ordinary (o : Outcome) : Prop := ∀ f, o.ending = .fault f → f.Ordinary o.machine

namespace Machine

theorem forward_ordinary (m : Machine) (cells : Nat) : (m.forward cells).Ordinary := by
  simp only [forward]
  split
  · trivial
  · exact .inl rfl

theorem back_ordinary (m : Machine) (cells : Nat) : (m.back cells).Ordinary := by
  simp only [back]
  split
  · trivial
  · exact .inl rfl

theorem store_ordinary (m : Machine) (value : UInt8) : (m.store value).Ordinary := by
  simp only [store]
  split
  · trivial
  · exact .inr rfl

theorem add_ordinary (m : Machine) (delta : UInt8) : (m.add delta).Ordinary := by
  simp only [add]
  split
  · exact store_ordinary m _
  · exact .inr rfl

theorem write_ordinary (m : Machine) : m.write.Ordinary := by
  simp only [write]
  split
  · trivial
  · exact .inr rfl

theorem read_ordinary (m : Machine) : m.read.Ordinary := by
  simp only [read]
  split
  · exact store_ordinary _ _
  · trivial

theorem eq_of_read_dry {m m' : Machine} (h : m.read = .dry m') : m' = m := by
  unfold read at h
  split at h
  · simp only [store] at h
    split at h <;> cases h
  · cases h
    rfl

theorem read_of_used_up {m : Machine} (dry : m.input.size ≤ m.position) : m.read = .dry m := by
  simp only [read, dif_neg (Nat.not_lt.mpr dry)]

end Machine

/-- Code whose reads all exit alike and whose calls all find their helpers. -/
def Routine.Accepts (r : Routine) (exit : DryExit) (code : Code) : Prop :=
  ∃ plain, Inlines r.helpers r.guarded exit code plain

/-- What waits for the statements at hand: loops, and the callers of open calls. -/
inductive Waiting (r : Routine) : DryExit → List Pending → Prop
  | nil : Waiting r .leave []
  | loop {exit body rest outer} : r.Accepts exit body → r.Accepts exit rest → Waiting r exit outer →
      Waiting r exit (.loop body rest :: outer)
  | call {exit rest outer} : r.guarded = true → r.Accepts exit rest → Waiting r exit outer →
      Waiting r .signal (.call rest :: outer)

/-- The statements at hand exit as the innermost open call wants. -/
def Activity.Placed (r : Routine) (a : Activity) : Prop :=
  ∃ exit, r.Accepts exit a.code ∧ Waiting r exit a.pending

namespace Waiting

variable {r : Routine} {pending : List Pending}

theorem guarded_of_signal (h : Waiting r .signal pending) : r.guarded = true := by
  generalize hx : DryExit.signal = exit at h
  induction h with
  | nil => cases hx
  | loop _ _ _ ih => exact ih hx
  | call under _ _ _ => exact under

/-- Outside all calls, to leave is to end the run. -/
theorem leave_eq (h : Waiting r .leave pending) (m : Machine) :
    Activity.leave m pending = .ended ⟨.exhausted, m⟩ := by
  generalize hx : DryExit.leave = exit at h
  induction h with
  | nil => rfl
  | loop _ _ _ ih => exact ih hx
  | call _ _ _ _ => cases hx

/-- Either way out of a read that finds no input ends the run. -/
theorem step_dry {exit : DryExit} (h : Waiting r exit pending) (rest : Code) {m : Machine}
    (dry : m.read = .dry m) :
    Activity.step r ⟨.read exit rest, pending, m⟩ = .ended ⟨.exhausted, m⟩ := by
  simp only [Activity.step, dry]
  cases exit with
  | leave => exact h.leave_eq m
  | signal => simp only [Activity.halt, h.guarded_of_signal, if_true]

end Waiting

namespace Activity

variable {r : Routine}

theorem proceed_placed {rest : Code} {pending : List Pending} (cont : ∀ m, Placed r ⟨rest, pending, m⟩)
    {e : Effect} (ordinary : e.Ordinary) :
    (proceed rest pending e).Gives (Placed r) Outcome.Ordinary := by
  cases e with
  | done m => exact cont m
  | dry m => rintro f ⟨⟩
  | fault f m =>
      rintro f' ⟨⟩
      exact ordinary

theorem step_done_placed {exit : DryExit} {pending : List Pending} (waiting : Waiting r exit pending)
    (m : Machine) : (step r ⟨.done, pending, m⟩).Gives (Placed r) Outcome.Ordinary := by
  cases waiting with
  | nil => rintro f ⟨⟩
  | loop hb hr hw =>
      obtain ⟨body', hb⟩ := hb
      obtain ⟨rest', hr⟩ := hr
      exact ⟨exit, ⟨_, .loop hb hr⟩, hw⟩
  | call _ hr hw => exact ⟨_, hr, hw⟩

theorem step_loop_placed {exit : DryExit} {body rest : Code} {pending : List Pending}
    (hb : r.Accepts exit body) (hr : r.Accepts exit rest) (waiting : Waiting r exit pending)
    (m : Machine) : (step r ⟨.loop body rest, pending, m⟩).Gives (Placed r) Outcome.Ordinary := by
  simp only [step]
  cases m.cell? with
  | none =>
      rintro f ⟨⟩
      exact .inr rfl
  | some value =>
      by_cases zero : value = 0
      · simp only [if_pos zero]
        exact ⟨exit, hr, waiting⟩
      · simp only [if_neg zero]
        exact ⟨exit, hb, .loop hb hr waiting⟩

/-- One statement leads to a place of the same kind or ends in an ordinary way. -/
theorem step_placed {c : Chain} (serves : r.Serves c) (a : Activity) (placed : a.Placed r) :
    (step r a).Gives (Placed r) Outcome.Ordinary := by
  obtain ⟨code, pending, m⟩ := a
  obtain ⟨exit, ⟨plain, inlines⟩, waiting⟩ := placed
  cases inlines with
  | done => exact step_done_placed waiting m
  | forward cells hr =>
      exact proceed_placed (fun _ => ⟨exit, ⟨_, hr⟩, waiting⟩) (m.forward_ordinary cells)
  | back cells hr =>
      exact proceed_placed (fun _ => ⟨exit, ⟨_, hr⟩, waiting⟩) (m.back_ordinary cells)
  | add delta hr => exact proceed_placed (fun _ => ⟨exit, ⟨_, hr⟩, waiting⟩) (m.add_ordinary delta)
  | write hr => exact proceed_placed (fun _ => ⟨exit, ⟨_, hr⟩, waiting⟩) m.write_ordinary
  | read hr =>
      have ordinary := m.read_ordinary
      cases hm : m.read with
      | done m' =>
          simp only [step, hm]
          exact ⟨exit, ⟨_, hr⟩, waiting⟩
      | dry m' =>
          cases Machine.eq_of_read_dry hm
          rw [waiting.step_dry _ hm]
          rintro f ⟨⟩
      | fault f m' =>
          rw [hm] at ordinary
          simp only [step, hm]
          rintro f' ⟨⟩
          exact ordinary
  | loop hb hr => exact step_loop_placed ⟨_, hb⟩ ⟨_, hr⟩ waiting m
  | call under defined hb hr =>
      simp only [step, serves.helper? defined]
      exact ⟨.signal, ⟨_, .loop hb .done⟩, .call under ⟨_, hr⟩ waiting⟩

end Activity

/-- The states that a run of the routine comes through. -/
def Routine.Reaches (r : Routine) (m : Machine) (a : Activity) : Prop :=
  ∃ n, Steps (Activity.step r) n ⟨r.body, [], m⟩ a

namespace Routine.Serves

variable {r : Routine} {c : Chain} {m : Machine}

theorem start_placed (serves : r.Serves c) : Activity.Placed r ⟨r.body, [], m⟩ :=
  ⟨.leave, ⟨_, serves.inlines⟩, .nil⟩

theorem ends_ordinary (serves : r.Serves c) {o : Outcome} (ends : ∃ fuel, r.run fuel m = some o) :
    o.Ordinary :=
  Ends.of_invariant (Activity.step_placed serves) serves.start_placed ends

/-- A read that finds no input ends the run, however many calls are open. -/
theorem ends_of_dry (serves : r.Serves c) {exit : DryExit} {rest : Code} {pending : List Pending}
    {m' : Machine} (reached : r.Reaches m ⟨.read exit rest, pending, m'⟩)
    (dry : m'.input.size ≤ m'.position) : ∃ fuel, r.run fuel m = some ⟨.exhausted, m'⟩ := by
  obtain ⟨n, path⟩ := reached
  obtain ⟨exit', ⟨plain, inlines⟩, waiting⟩ :=
    path.of_invariant (Activity.step_placed serves) serves.start_placed
  cases inlines with
  | read _ =>
      have last := waiting.step_dry rest (Machine.read_of_used_up dry)
      exact path.ends_iff.mpr (.of_ended last)

end Routine.Serves

/-- Hoisting and sharing are invisible. Routines with the texts of two routines of one chain, whatever
their budgets and however the nodes are shared, end with the same outcomes from every pointer and on
every tape, or neither ends; all they raise is a move off the tape or a missing cell; and a read that
finds no input ends the whole run with the machine as it is there, however many calls are open. -/
theorem routines_of_one_chain_agree (a b : Linked) (ha : a.Coherent) (hb : b.Coherent)
    (same : a.chain = b.chain) (config config' : Config) (r r' : Routine)
    (emitted : r.text = (a.routine config).text) (emitted' : r'.text = (b.routine config').text)
    (m : Machine) :
    (∀ o, (∃ fuel, r.run fuel m = some o) ↔ ∃ fuel, r'.run fuel m = some o) ∧
      (∀ o, (∃ fuel, r.run fuel m = some o) → o.Ordinary) ∧
      ∀ exit rest pending m', r.Reaches m ⟨.read exit rest, pending, m'⟩ →
        m'.input.size ≤ m'.position → ∃ fuel, r.run fuel m = some ⟨.exhausted, m'⟩ := by
  have serves := a.routine_serves ha config
  rw [Routine.eq_of_text emitted, Routine.eq_of_text emitted']
  refine ⟨fun o => ?_, fun o => serves.ends_ordinary, fun _ _ _ _ => serves.ends_of_dry⟩
  rw [a.routine_ends_iff_plain ha, b.routine_ends_iff_plain hb, same]

/-- The read stands in a helper that a helper calls, and the pointer counts from the end of the tape;
the other routine has both loops in place, and its chain has a single last node. -/
theorem nested_read_routines_agree :
    let apart := Linked.fresh (.loop (.loop (.input .stop) .stop) .stop)
    let lowered := (Program.loop (.loop (.input .done) .done) .done).lower
    let hoisted : Routine :=
      { helpers := [⟨1, .read .signal .done⟩, ⟨0, .call 1 .done⟩]
        guarded := true
        body := .call 0 .done }
    let inline : Routine :=
      { helpers := [], guarded := false, body := .loop (.loop (.read .leave .done) .done) .done }
    (apart.Coherent ∧ lowered.Coherent ∧ apart.chain = lowered.chain) ∧
      hoisted.text = (apart.routine { inlineDepth := 1 }).text ∧
      inline.text = (lowered.routine { inlineDepth := 2 }).text ∧
      (∀ o, (∃ fuel, hoisted.run fuel ⟨-1, ⟨#[0, 1]⟩, #[], 0, #[]⟩ = some o) ↔
          ∃ fuel, inline.run fuel ⟨-1, ⟨#[0, 1]⟩, #[], 0, #[]⟩ = some o) ∧
      hoisted.Reaches ⟨-1, ⟨#[0, 1]⟩, #[], 0, #[]⟩
        ⟨.read .signal .done, [.loop (.read .signal .done) .done, .call .done,
          .loop (.call 1 .done) .done, .call .done], ⟨-1, ⟨#[0, 1]⟩, #[], 0, #[]⟩⟩ ∧
      ∃ fuel, hoisted.run fuel ⟨-1, ⟨#[0, 1]⟩, #[], 0, #[]⟩ =
        some ⟨.exhausted, ⟨-1, ⟨#[0, 1]⟩, #[], 0, #[]⟩⟩ := by
  intro apart lowered hoisted inline
  have same : apart.chain = lowered.chain := by
    rw [Linked.fresh_chain, Program.lower_chain]
    rfl
  have deep : apart.routine { inlineDepth := 1 } = hoisted := by
    simp [apart, hoisted, Linked.routine, Linked.needsHelpers, Linked.fresh, Linked.freshFrom,
      Linked.chain, Chain.depth_eq_nesting, Chain.nesting, Linked.emit, Hoisted.empty,
      Std.HashMap.size_insert]
  have tagged : lowered = .loop 3 (.loop 2 (.input 1 (.stop 0)) (.stop 0)) (.stop 0) := by
    simp [lowered, Program.lower, Program.lowerInto, NodeTable.intern, NodeTable.empty, Linked.tag,
      Std.HashMap.size_insert]
  have shallow : lowered.routine { inlineDepth := 2 } = inline := by
    simp [tagged, inline, Linked.routine, Linked.needsHelpers, Linked.chain, Chain.depth_eq_nesting,
      Chain.nesting, Linked.emit, Hoisted.empty]
  have text : hoisted.text = (apart.routine { inlineDepth := 1 }).text := by rw [deep]
  have text' : inline.text = (lowered.routine { inlineDepth := 2 }).text := by rw [shallow]
  have reached : hoisted.Reaches ⟨-1, ⟨#[0, 1]⟩, #[], 0, #[]⟩
      ⟨.read .signal .done, [.loop (.read .signal .done) .done, .call .done,
        .loop (.call 1 .done) .done, .call .done], ⟨-1, ⟨#[0, 1]⟩, #[], 0, #[]⟩⟩ :=
    ⟨4, .more rfl (.more rfl (.more rfl (.more rfl (.refl _))))⟩
  obtain ⟨alike, -, dry⟩ := routines_of_one_chain_agree apart lowered (Linked.fresh_coherent _)
    (Program.lower_coherent _) same { inlineDepth := 1 } { inlineDepth := 2 } hoisted inline text text'
    ⟨-1, ⟨#[0, 1]⟩, #[], 0, #[]⟩
  exact ⟨⟨Linked.fresh_coherent _, Program.lower_coherent _, same⟩, text, text', alike, reached,
    dry _ _ _ _ reached (Nat.le_refl _)⟩

end TapeChain
