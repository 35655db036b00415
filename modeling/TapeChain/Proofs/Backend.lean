import TapeChain.Machine.Walk
import TapeChain.Proofs.Legibility
import TapeChain.Proofs.Machine

/-! The two engines agree. While the pointer stands on the tape, the plain statements of a chain do
what walking the chain does: the statements test only the side a move goes towards and leave out
moves and additions of nothing, and on the tape neither can be told from the full test. With hoisting
invisible, the routine of a chain and the walk end alike; and a routine is known by its text. -/
namespace TapeChain

/-- The statements that an entered loop leaves to do. -/
def Entered.pending (e : Entered) : Pending := .loop e.body.code e.next.code

namespace Walk

/-- The same place of the same run, in plain statements. -/
def activity (w : Walk) : Activity := ⟨w.node.code, w.loops.map Entered.pending, w.machine⟩

def OnTape (n : Nat) (w : Walk) : Prop := w.machine.onTape ∧ w.machine.tape.size = n

theorem proceed_safe {n : Nat} (next : Chain) (loops : List Entered) {e : Effect} (safe : e.Safe n) :
    (proceed next loops e).Gives (OnTape n) (Outcome.Safe n) := by
  cases e with
  | done m => exact safe
  | dry m => exact ⟨safe.2, safe.1⟩
  | fault f m => exact ⟨safe.2.2, safe.1, safe.2.1⟩

/-- One node keeps the walk on the tape or reports the move that leaves it. -/
theorem step_safe {n : Nat} (w : Walk) (h : w.OnTape n) :
    (step w).Gives (OnTape n) (Outcome.Safe n) := by
  obtain ⟨node, loops, m⟩ := w
  obtain ⟨on, rfl⟩ := h
  obtain ⟨value, hv⟩ := Machine.cell?_of_onTape on
  cases node with
  | stop =>
      cases loops with
      | nil => exact ⟨rfl, on⟩
      | cons loop outer =>
          simp only [step, hv]
          split <;> exact ⟨on, rfl⟩
  | loop body next =>
      simp only [step, hv]
      split <;> exact ⟨on, rfl⟩
  | move offset next => exact proceed_safe next loops (Machine.shift_safe m offset.value)
  | add delta next => exact proceed_safe next loops (Machine.add_safe on delta.byte)
  | output next => exact proceed_safe next loops (Machine.write_safe on)
  | input next => exact proceed_safe next loops (Machine.read_safe on)

theorem ends_safe {w : Walk} (on : w.machine.onTape) {o : Outcome} (ends : Ends step w o) :
    o.Safe w.machine.tape.size :=
  ends.of_invariant step_safe ⟨on, rfl⟩

theorem leave_pending (m : Machine) (loops : List Entered) :
    Activity.leave m (loops.map Entered.pending) = .ended ⟨.exhausted, m⟩ := by
  induction loops with
  | nil => rfl
  | cons e outer ih => exact ih

/-- The plain statements stand where the walk stands, and the pointer is on the tape. -/
def Tracked (a : Activity) (w : Walk) : Prop := a = w.activity ∧ w.machine.onTape

theorem alike_proceed {n : Nat} (next : Chain) (loops : List Entered) {e : Effect}
    (safe : e.Safe n) :
    Alike Tracked (Activity.proceed next.code (loops.map Entered.pending) e)
      (proceed next loops e) := by
  cases e with
  | done m => exact .more ⟨rfl, safe.1⟩
  | dry m => exact .ended _
  | fault f m => exact .ended _

theorem answers_move {m : Machine} (on : m.onTape) (r : Routine) (offset : Operand) (next : Chain)
    (loops : List Entered) :
    Answers (Activity.step r) Tracked (fun w => w.node.nodes)
      (activity ⟨.move offset next, loops, m⟩) ⟨.move offset next, loops, m⟩
      (proceed next loops (m.shift offset.value)) := by
  obtain ⟨low, high⟩ := Machine.onTape_iff.mp on
  have safe := Machine.shift_safe m offset.value
  rcases Int.lt_trichotomy offset.value 0 with negative | zero | positive
  · apply Answers.one
    have still : ¬ 0 < offset.value := by omega
    simp only [activity, Chain.code, Code.move, if_neg still, if_pos negative, Activity.step]
    rw [Machine.shift_eq_back high negative] at safe ⊢
    exact alike_proceed next loops safe
  · -- No statement stands for this node; the walk comes one node closer to the end.
    rw [zero, Machine.shift_zero_of_onTape on]
    refine .inr ⟨⟨?_, on⟩, Nat.lt_succ_self _⟩
    simp only [activity, Chain.code, Code.move, zero, Int.lt_irrefl, if_false]
  · apply Answers.one
    simp only [activity, Chain.code, Code.move, if_pos positive, Activity.step]
    rw [Machine.shift_eq_forward low positive] at safe ⊢
    exact alike_proceed next loops safe

theorem answers_add {m : Machine} (on : m.onTape) (r : Routine) (delta : Operand) (next : Chain)
    (loops : List Entered) :
    Answers (Activity.step r) Tracked (fun w => w.node.nodes)
      (activity ⟨.add delta next, loops, m⟩) ⟨.add delta next, loops, m⟩
      (proceed next loops (m.add delta.byte)) := by
  by_cases zero : delta.byte = 0
  · rw [zero, Machine.add_zero_of_onTape on]
    refine .inr ⟨⟨?_, on⟩, Nat.lt_succ_self _⟩
    simp only [activity, Chain.code, Code.bump, zero, if_true]
  · apply Answers.one
    simp only [activity, Chain.code, Code.bump, if_neg zero, Activity.step]
    exact alike_proceed next loops (Machine.add_safe on delta.byte)

/-- The walk is followed node by node. At the end of a body the statements first go back to the
head of the loop and test there. -/
theorem plain_follows (r : Routine) :
    Follows (Activity.step r) step Tracked (fun w => w.node.nodes) := by
  rintro s ⟨node, loops, m⟩ ⟨rfl, on⟩
  obtain ⟨value, hv⟩ := Machine.cell?_of_onTape on
  cases node with
  | stop =>
      cases loops with
      | nil => exact .one (.ended _)
      | cons loop outer =>
          have back : Activity.step r (activity ⟨.stop, loop :: outer, m⟩) =
              .more ⟨.loop loop.body.code loop.next.code, outer.map Entered.pending, m⟩ := rfl
          refine .after (.one back) (.one ?_)
          simp only [step, Activity.step, hv]
          by_cases zero : value = 0
          · simp only [if_pos zero]
            exact .more ⟨rfl, on⟩
          · simp only [if_neg zero]
            exact .more ⟨rfl, on⟩
  | loop body next =>
      refine .one ?_
      simp only [step, activity, Chain.code, Activity.step, hv]
      by_cases zero : value = 0
      · simp only [if_pos zero]
        exact .more ⟨rfl, on⟩
      · simp only [if_neg zero]
        exact .more ⟨rfl, on⟩
  | move offset next => exact answers_move on r offset next loops
  | add delta next => exact answers_add on r delta next loops
  | output next => exact .one (alike_proceed next loops (Machine.write_safe on))
  | input next =>
      have safe := Machine.read_safe on
      refine .one ?_
      simp only [step, activity, Chain.code, Activity.step]
      cases hm : m.read with
      | done m' => exact alike_proceed next loops (hm ▸ safe)
      | fault f m' => exact .ended _
      | dry m' =>
          simp only [leave_pending]
          exact .ended _

end Walk

theorem Chain.plain_ends_iff_walk (c : Chain) {m : Machine} (on : m.onTape) (o : Outcome) :
    (∃ fuel, c.plain.run fuel m = some o) ↔ ∃ fuel, c.walk fuel m = some o :=
  (Walk.plain_follows c.plain).ends_iff ⟨rfl, on⟩

theorem Linked.routine_run_iff_walk {l : Linked} (coherent : l.Coherent) (config : Config)
    {m : Machine} (on : m.onTape) (o : Outcome) :
    (∃ fuel, (l.routine config).run fuel m = some o) ↔ ∃ fuel, l.chain.walk fuel m = some o :=
  (l.routine_ends_iff_plain coherent config m o).trans (l.chain.plain_ends_iff_walk on o)

/-- The two engines agree: from a pointer on the tape, a routine with the text of a chain's routine and
the walk of the chain end with the same outcomes, that is with the same ending, pointer, tape, output
and input position, or neither ends; and the only fault is a move off the tape, which names where the
pointer went and how long the tape is. -/
theorem routine_agrees_with_walk (l : Linked) (coherent : l.Coherent) (config : Config) (r : Routine)
    (emitted : r.text = (l.routine config).text) (m : Machine) (low : 0 ≤ m.address)
    (high : m.address < m.tape.size) :
    (∀ o, (∃ fuel, r.run fuel m = some o) ↔ ∃ fuel, l.chain.walk fuel m = some o) ∧
      ∀ f m', (∃ fuel, l.chain.walk fuel m = some ⟨.fault f, m'⟩) →
        f = .offTape m'.address m.tape.size := by
  have on : m.onTape = true := Machine.onTape_iff.mpr ⟨low, high⟩
  rw [Routine.eq_of_text emitted]
  refine ⟨fun o => l.routine_run_iff_walk coherent config on o, ?_⟩
  intro f m' ends
  exact (Walk.ends_safe (w := ⟨l.chain, [], m⟩) on ends).2.1

/-- The equal inner loops of a lowered program are one node with one helper; those of a chain that was
read from text are two nodes with a helper each. -/
theorem equal_loops_agree_with_walk :
    let lowered := (Program.loop (.loop (.input .done) .done)
      (.loop (.loop (.input .done) .done) .done)).lower
    let apart := Linked.fresh (.loop (.loop (.input .stop) .stop)
      (.loop (.loop (.input .stop) .stop) .stop))
    let shared : Routine :=
      { helpers := [⟨1, .read .signal .done⟩, ⟨0, .call 1 .done⟩, ⟨2, .call 1 .done⟩]
        guarded := true
        body := .call 0 (.call 2 .done) }
    let unshared : Routine :=
      { helpers := [⟨1, .read .signal .done⟩, ⟨0, .call 1 .done⟩, ⟨3, .read .signal .done⟩,
          ⟨2, .call 3 .done⟩]
        guarded := true
        body := .call 0 (.call 2 .done) }
    (lowered.Coherent ∧ shared.text = (lowered.routine { inlineDepth := 1 }).text ∧
        ∀ o, (∃ fuel, shared.run fuel ⟨0, ⟨#[1]⟩, #[7], 0, #[]⟩ = some o) ↔
          ∃ fuel, lowered.chain.walk fuel ⟨0, ⟨#[1]⟩, #[7], 0, #[]⟩ = some o) ∧
      apart.Coherent ∧ unshared.text = (apart.routine { inlineDepth := 1 }).text ∧
        ∀ o, (∃ fuel, unshared.run fuel ⟨0, ⟨#[1]⟩, #[7], 0, #[]⟩ = some o) ↔
          ∃ fuel, apart.chain.walk fuel ⟨0, ⟨#[1]⟩, #[7], 0, #[]⟩ = some o := by
  intro lowered apart shared unshared
  have tagged : lowered = .loop 4 (.loop 2 (.input 1 (.stop 0)) (.stop 0))
      (.loop 3 (.loop 2 (.input 1 (.stop 0)) (.stop 0)) (.stop 0)) := by
    simp [lowered, Program.lower, Program.lowerInto, NodeTable.intern, NodeTable.empty, Linked.tag,
      Std.HashMap.size_insert, Std.HashMap.getElem_insert]
  have hoistsOnce : lowered.routine { inlineDepth := 1 } = shared := by
    simp [tagged, shared, Linked.routine, Linked.needsHelpers, Linked.chain, Chain.depth_eq_nesting,
      Chain.nesting, Linked.emit, Hoisted.empty, Std.HashMap.size_insert, Std.HashMap.getElem_insert]
  have hoistsTwice : apart.routine { inlineDepth := 1 } = unshared := by
    simp [apart, unshared, Linked.routine, Linked.needsHelpers, Linked.fresh, Linked.freshFrom,
      Linked.chain, Chain.depth_eq_nesting, Chain.nesting, Linked.emit, Hoisted.empty,
      Std.HashMap.size_insert]
  have text : shared.text = (lowered.routine { inlineDepth := 1 }).text := by rw [hoistsOnce]
  have text' : unshared.text = (apart.routine { inlineDepth := 1 }).text := by rw [hoistsTwice]
  refine ⟨⟨Program.lower_coherent _, text, ?_⟩, Linked.fresh_coherent _, text', ?_⟩
  · exact (routine_agrees_with_walk lowered (Program.lower_coherent _) { inlineDepth := 1 } shared text
      ⟨0, ⟨#[1]⟩, #[7], 0, #[]⟩ (by decide) (by decide)).1
  · exact (routine_agrees_with_walk apart (Linked.fresh_coherent _) { inlineDepth := 1 } unshared text'
      ⟨0, ⟨#[1]⟩, #[7], 0, #[]⟩ (by decide) (by decide)).1

end TapeChain
