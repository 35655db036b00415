import TapeChain.Proofs.Backend
import TapeChain.Proofs.Frames

/-! Pointers off the tape. The walk wants the pointer on the tape after every move, and looks up the
cell of every addition; a routine tests only the side that a move goes towards, and has no statement for
a move or an addition of nothing. So from a pointer anywhere the routine is at most as strict as the
walk: up to a fault of the walk the two go together, and at that fault the routine stands where the
walk stands, to fault as well or to go on. -/
namespace TapeChain

section
variable {σ τ : Type} {left : σ → Progress σ} {right : τ → Progress τ} {machine : σ → Machine}
  {related : σ → τ → Prop} {rank : τ → Nat} {s : σ} {t : τ} {o : Outcome}

/-- What a laxer run makes of an outcome: it ends with it, or the outcome is a fault and the run
comes through the machine of that fault. -/
def Concedes (left : σ → Progress σ) (machine : σ → Machine) (s : σ) (o : Outcome) : Prop :=
  Ends left s o ∨ ∃ f n s', o.ending = .fault f ∧ Steps left n s s' ∧ machine s' = o.machine

theorem Concedes.after {n : Nat} {s' : σ} (path : Steps left n s s')
    (h : Concedes left machine s' o) : Concedes left machine s o := by
  rcases h with ends | ⟨f, k, s'', faulty, rest, same⟩
  · exact .inl (path.ends_iff.mpr ends)
  · exact .inr ⟨f, n + k, s'', faulty, path.trans rest, same⟩

/-- How a laxer left machine answers a step of the right one. -/
def Yields (left : σ → Progress σ) (machine : σ → Machine) (related : σ → τ → Prop) (rank : τ → Nat)
    (s : σ) (t : τ) : Progress τ → Prop
  | .ended o => Concedes left machine s o
  | .more t' => Answers left related rank s t (.more t')

def Relaxes (left : σ → Progress σ) (right : τ → Progress τ) (machine : σ → Machine)
    (related : σ → τ → Prop) (rank : τ → Nat) : Prop :=
  ∀ s t, related s t → Yields left machine related rank s t (right t)

theorem Answers.yields {p : Progress τ} (h : Answers left related rank s t p) :
    Yields left machine related rank s t p := by
  cases p with
  | ended o => exact .inl h
  | more t' => exact h

theorem Relaxes.concedes (h : Relaxes left right machine related rank) (hr : related s t)
    (ends : Ends right t o) : Concedes left machine s o := by
  obtain ⟨fuel, run⟩ := ends
  induction fuel generalizing s t with
  | zero => cases run
  | succ fuel ih =>
      have answer := h s t hr
      cases ht : right t with
      | ended o' =>
          rw [runFor_ended ht, Option.some.injEq] at run
          rw [ht, run] at answer
          exact answer
      | more t' =>
          rw [runFor_more ht] at run
          rw [ht] at answer
          rcases answer with ⟨n, s', path, hr'⟩ | ⟨hr', -⟩
          · exact (ih hr' run).after path
          · exact ih hr' run

/-- A run on the right goes on forever only if the one on the left does. As for runs that end alike,
the induction is on the steps that the left run has left, and among equals on the rank. -/
theorem Relaxes.ends_of_left (h : Relaxes left right machine related rank) (hr : related s t)
    (ends : Ends left s o) : ∃ o', Ends right t o' := by
  obtain ⟨fuel, run⟩ := ends
  induction fuel using Nat.strongRecOn generalizing s t with
  | ind fuel ihFuel =>
      induction hk : rank t using Nat.strongRecOn generalizing t with
      | ind k ihRank =>
          have answer := h s t hr
          cases ht : right t with
          | ended o' => exact ⟨o', .of_ended ht⟩
          | more t' =>
              rw [ht] at answer
              have further : ∃ o', Ends right t' o' := by
                rcases answer with ⟨n, s', path, hr'⟩ | ⟨hr', lower⟩
                · obtain ⟨rest, rfl⟩ := Nat.exists_eq_add_of_le (path.le_of_runFor run)
                  rw [path.runFor rest] at run
                  exact ihFuel rest (by omega) hr' run
                · exact ihRank (rank t') (hk ▸ lower) hr' rfl
              obtain ⟨o', ends⟩ := further
              exact ⟨o', (Steps.one ht).ends_iff.mpr ends⟩

/-- A laxer run ends as the right one, unless the right one ends by a fault. -/
theorem Relaxes.ends_iff (h : Relaxes left right machine related rank) (hr : related s t)
    (clean : ∀ o f, Ends right t o → o.ending ≠ .fault f) : Ends left s o ↔ Ends right t o := by
  have conceded (o : Outcome) (ends : Ends right t o) : Ends left s o := by
    rcases h.concedes hr ends with same | ⟨f, -, -, faulty, -⟩
    · exact same
    · exact absurd faulty (clean o f ends)
  constructor
  · intro ends
    obtain ⟨o', ends'⟩ := h.ends_of_left hr ends
    exact ends.unique (conceded o' ends') ▸ ends'
  · exact conceded o

theorem Relaxes.fault_of_left (h : Relaxes left right machine related rank) (hr : related s t)
    {f : Fault} (ends : Ends left s o) (faulty : o.ending = .fault f) :
    ∃ o' f', Ends right t o' ∧ o'.ending = .fault f' := by
  obtain ⟨o', ends'⟩ := h.ends_of_left hr ends
  rcases h.concedes hr ends' with same | ⟨f', -, -, faulty', -⟩
  · exact ⟨o', f, ends', ends.unique same ▸ faulty⟩
  · exact ⟨o', f', ends', faulty'⟩

end

/-! ### Laxer actions -/

/-- The first effect is the second one, or goes on with the machine at which the second one faults. -/
def Effect.Eases (lax strict : Effect) : Prop :=
  lax = strict ∨ ∃ f m, strict = .fault f m ∧ lax = .done m

namespace Machine

theorem forward_eases (m : Machine) {offset : Int} (positive : 0 < offset) :
    (m.forward offset.toNat).Eases (m.shift offset) := by
  have same : ((offset.toNat : Nat) : Int) = offset := Int.toNat_of_nonneg (Int.le_of_lt positive)
  simp only [forward, shift, same]
  by_cases high : m.address + offset < m.tape.size
  · rw [if_pos high]
    split
    · exact .inl rfl
    · exact .inr ⟨_, _, rfl, rfl⟩
  · have off : ¬ ({ m with address := m.address + offset } : Machine).onTape = true :=
      fun on => high (onTape_iff.mp on).2
    rw [if_neg high, if_neg off]
    exact .inl rfl

theorem back_eases (m : Machine) {offset : Int} (negative : offset < 0) :
    (m.back (-offset).toNat).Eases (m.shift offset) := by
  have same : m.address - ((-offset).toNat : Nat) = m.address + offset := by omega
  simp only [back, shift, same]
  by_cases low : 0 ≤ m.address + offset
  · rw [if_pos low]
    split
    · exact .inl rfl
    · exact .inr ⟨_, _, rfl, rfl⟩
  · have off : ¬ ({ m with address := m.address + offset } : Machine).onTape = true :=
      fun on => low (onTape_iff.mp on).1
    rw [if_neg low, if_neg off]
    exact .inl rfl

theorem done_eases_shift_zero (m : Machine) : (Effect.done m).Eases (m.shift 0) := by
  simp only [shift, Int.add_zero]
  split
  · exact .inl rfl
  · exact .inr ⟨_, _, rfl, rfl⟩

theorem done_eases_add_zero (m : Machine) : (Effect.done m).Eases (m.add 0) := by
  cases slot : m.tape.slot? m.address with
  | none =>
      have cell : m.cell? = none := by simp only [cell?, Tape.get?, slot, Option.map_none]
      simp only [add, cell]
      exact .inr ⟨_, _, rfl, rfl⟩
  | some i =>
      rw [add_of_slot? 0 slot, UInt8.add_zero, Tape.put_same _ _ i.isLt]
      exact .inl rfl

end Machine

/-! ### The statements relax the walk -/

namespace Walk

/-- The plain statements stand where the walk stands, be that on the tape or off it. -/
def Mirrored (a : Activity) (w : Walk) : Prop := a = w.activity

theorem yields_statement {r : Routine} {a : Activity} {w : Walk} {next : Chain}
    {loops : List Entered} {lax strict : Effect}
    (acts : Activity.step r a = Activity.proceed next.code (loops.map Entered.pending) lax)
    (eases : lax.Eases strict) :
    Yields (Activity.step r) Activity.machine Mirrored (fun w => w.node.nodes) a w
      (proceed next loops strict) := by
  rcases eases with rfl | ⟨f, m, rfl, rfl⟩
  · apply Answers.yields
    apply Answers.one
    rw [acts]
    cases lax with
    | done m => exact .more rfl
    | dry m => exact .ended _
    | fault f m => exact .ended _
  · exact .inr ⟨f, 1, _, rfl, .one acts, rfl⟩

/-- Where no statement stands for a node, the statements wait for the walk to pass it. -/
theorem yields_nothing {r : Routine} {w : Walk} {next : Chain} {loops : List Entered} {m : Machine}
    {strict : Effect} (skipped : w.activity = activity ⟨next, loops, m⟩)
    (fewer : next.nodes < w.node.nodes) (eases : (Effect.done m).Eases strict) :
    Yields (Activity.step r) Activity.machine Mirrored (fun w => w.node.nodes) w.activity w
      (proceed next loops strict) := by
  rcases eases with rfl | ⟨f, m', rfl, same⟩
  · exact .inr ⟨skipped, fewer⟩
  · cases same
    exact .inr ⟨f, 0, _, rfl, .refl _, by rw [skipped]; rfl⟩

theorem yields_move (r : Routine) (offset : Operand) (next : Chain) (loops : List Entered)
    (m : Machine) :
    Yields (Activity.step r) Activity.machine Mirrored (fun w => w.node.nodes)
      (activity ⟨.move offset next, loops, m⟩) ⟨.move offset next, loops, m⟩
      (proceed next loops (m.shift offset.value)) := by
  rcases Int.lt_trichotomy offset.value 0 with negative | zero | positive
  · have still : ¬ 0 < offset.value := by omega
    refine yields_statement ?_ (m.back_eases negative)
    simp only [activity, Chain.code, Code.move, if_neg still, if_pos negative, Activity.step]
  · rw [zero]
    refine yields_nothing ?_ (Nat.lt_succ_self _) m.done_eases_shift_zero
    simp only [activity, Chain.code, Code.move, zero, Int.lt_irrefl, if_false]
  · refine yields_statement ?_ (m.forward_eases positive)
    simp only [activity, Chain.code, Code.move, if_pos positive, Activity.step]

theorem yields_add (r : Routine) (delta : Operand) (next : Chain) (loops : List Entered)
    (m : Machine) :
    Yields (Activity.step r) Activity.machine Mirrored (fun w => w.node.nodes)
      (activity ⟨.add delta next, loops, m⟩) ⟨.add delta next, loops, m⟩
      (proceed next loops (m.add delta.byte)) := by
  by_cases zero : delta.byte = 0
  · rw [zero]
    refine yields_nothing ?_ (Nat.lt_succ_self _) m.done_eases_add_zero
    simp only [activity, Chain.code, Code.bump, zero, if_true]
  · refine yields_statement ?_ (.inl rfl)
    simp only [activity, Chain.code, Code.bump, if_neg zero, Activity.step]

/-- Both engines test the same cell, and a missing one is the same fault. -/
theorem alike_test (r : Routine) (body next : Chain) (loops : List Entered) (m : Machine) :
    Alike Mirrored (Activity.step r (activity ⟨.loop body next, loops, m⟩))
      (step ⟨.loop body next, loops, m⟩) := by
  simp only [step, activity, Chain.code, Activity.step]
  cases m.cell? with
  | none => exact .ended _
  | some value =>
      by_cases zero : value = 0
      · simp only [if_pos zero]
        exact .more rfl
      · simp only [if_neg zero]
        exact .more rfl

theorem plain_relaxes (r : Routine) :
    Relaxes (Activity.step r) step Activity.machine Mirrored (fun w => w.node.nodes) := by
  rintro s ⟨node, loops, m⟩ rfl
  cases node with
  | stop =>
      cases loops with
      | nil => exact .inl (.of_ended rfl)
      | cons loop outer =>
          -- The statements go back to the head of the loop and test there.
          have back : Activity.step r (activity ⟨.stop, loop :: outer, m⟩) =
              .more (activity ⟨.loop loop.body loop.next, outer, m⟩) := rfl
          exact (Answers.after (.one back) (.one (alike_test r _ _ _ m))).yields
  | loop body next => exact (Answers.one (alike_test r body next loops m)).yields
  | move offset next => exact yields_move r offset next loops m
  | add delta next => exact yields_add r delta next loops m
  | output next => exact yields_statement rfl (.inl rfl)
  | input next =>
      cases hm : m.read with
      | done m' =>
          simp only [step, hm]
          refine yields_statement ?_ (.inl rfl)
          simp only [activity, Chain.code, Activity.step, hm]
      | fault f m' =>
          simp only [step, hm]
          refine yields_statement ?_ (.inl rfl)
          simp only [activity, Chain.code, Activity.step, hm]
      | dry m' =>
          simp only [step, hm]
          refine .inl (.of_ended ?_)
          simp only [activity, Chain.code, Activity.step, hm, leave_pending]

end Walk

/-! ### Helpers add nothing -/

theorem Aligned.machine_eq {r : Routine} {a b : Activity} (h : Aligned r a b) :
    a.machine = b.machine := by
  cases h <;> rfl

theorem Routine.Serves.concedes {r : Routine} {c : Chain} (serves : r.Serves c) {m : Machine}
    {o : Outcome} (h : Concedes (Activity.step c.plain) Activity.machine ⟨c.code, [], m⟩ o) :
    Concedes (Activity.step r) Activity.machine ⟨r.body, [], m⟩ o := by
  have start : Aligned r ⟨r.body, [], m⟩ ⟨c.code, [], m⟩ := .level serves.inlines .nil
  have follows := serves.follows c.plain
  rcases h with ends | ⟨f, n, t, faulty, path, same⟩
  · exact .inl (follows.ends_of_right start ends)
  · obtain ⟨k, s, path', aligned⟩ := follows.steps start path
    exact .inr ⟨f, k, s, faulty, path', aligned.machine_eq.trans same⟩

section
variable {l : Linked} {m : Machine}

theorem Linked.plain_mirrored (l : Linked) (m : Machine) :
    Walk.Mirrored ⟨l.chain.code, [], m⟩ ⟨l.chain, [], m⟩ := rfl

theorem Linked.routine_concedes (coherent : l.Coherent) (config : Config) {o : Outcome}
    (walked : ∃ fuel, l.chain.walk fuel m = some o) :
    Concedes (Activity.step (l.routine config)) Activity.machine ⟨(l.routine config).body, [], m⟩ o :=
  (l.routine_serves coherent config).concedes
    ((Walk.plain_relaxes l.chain.plain).concedes (l.plain_mirrored m) walked)

theorem Linked.walk_ends_of_routine (coherent : l.Coherent) (config : Config) {o : Outcome}
    (ends : ∃ fuel, (l.routine config).run fuel m = some o) :
    ∃ o' fuel, l.chain.walk fuel m = some o' :=
  (Walk.plain_relaxes l.chain.plain).ends_of_left (l.plain_mirrored m)
    ((l.routine_ends_iff_plain coherent config m o).mp ends)

end

/-- From every pointer and on every tape, also one without cells, a routine with the text of a chain's
routine relaxes the walk. Where the walk ends without a fault the routine ends alike, with the same
machine; where the walk goes on forever so does the routine; and where the walk faults, the routine
comes through a state with the very machine of that fault, or ends with the same fault. -/
theorem routine_relaxes_walk (l : Linked) (coherent : l.Coherent) (config : Config) (r : Routine)
    (emitted : r.text = (l.routine config).text) (m : Machine) :
    (∀ ending m', (∀ f, ending ≠ .fault f) → (∃ fuel, l.chain.walk fuel m = some ⟨ending, m'⟩) →
        ∃ fuel, r.run fuel m = some ⟨ending, m'⟩) ∧
      ((∀ fuel, l.chain.walk fuel m = none) → ∀ fuel, r.run fuel m = none) ∧
      ∀ f m', (∃ fuel, l.chain.walk fuel m = some ⟨.fault f, m'⟩) →
        (∃ a, r.Reaches m a ∧ a.machine = m') ∨ ∃ fuel, r.run fuel m = some ⟨.fault f, m'⟩ := by
  rw [Routine.eq_of_text emitted]
  refine ⟨?_, ?_, ?_⟩
  · intro ending m' regular walked
    rcases l.routine_concedes coherent config walked with ends | ⟨f, n, a, faulty, -⟩
    · exact ends
    · exact absurd faulty (regular f)
  · intro forever fuel
    by_contra stops
    obtain ⟨o, run⟩ := Option.ne_none_iff_exists'.mp stops
    obtain ⟨o', fuel', walked⟩ := l.walk_ends_of_routine coherent config ⟨fuel, run⟩
    rw [forever fuel'] at walked
    cases walked
  · intro f m' walked
    rcases l.routine_concedes coherent config walked with ends | ⟨-, n, a, -, path, same⟩
    · exact .inr ends
    · exact .inl ⟨a, ⟨n, path⟩, same⟩

/-- On a tape of two cells, from three cells before its start, a move by one is a fault of the walk, while
the routine goes on and writes the cell that the index from the end names. From one cell before the start
both end alike, and a loop around nothing keeps both busy there forever. -/
theorem early_pointer_relaxes_walk :
    let moves := Linked.fresh (.move (.encode 1) (.output .stop))
    let loops := Linked.fresh (.loop .stop .stop)
    let r : Routine := { helpers := [], guarded := false, body := .forward 1 (.write .done) }
    let busy : Routine := { helpers := [], guarded := false, body := .loop .done .done }
    (moves.Coherent ∧ loops.Coherent ∧ r.text = (moves.routine {}).text ∧
        busy.text = (loops.routine {}).text) ∧
      (∃ a, r.Reaches ⟨-3, ⟨#[7, 9]⟩, #[], 0, #[]⟩ a ∧
        a.machine = ⟨-2, ⟨#[7, 9]⟩, #[], 0, #[]⟩) ∧
      (∃ fuel, r.run fuel ⟨-1, ⟨#[7, 9]⟩, #[], 0, #[]⟩ =
        some ⟨.finished, ⟨0, ⟨#[7, 9]⟩, #[], 0, #[7]⟩⟩) ∧
      ∀ fuel, busy.run fuel ⟨-1, ⟨#[7, 9]⟩, #[], 0, #[]⟩ = none := by
  intro moves loops r busy
  have flat : moves.needsHelpers {} = false ∧ loops.needsHelpers {} = false := by
    rw [Linked.needsHelpers, Linked.needsHelpers, Chain.depth_eq_nesting, Chain.depth_eq_nesting]
    exact ⟨rfl, rfl⟩
  have text : r.text = (moves.routine {}).text := by
    simp only [Linked.routine, flat.1]
    rfl
  have text' : busy.text = (loops.routine {}).text := by
    simp only [Linked.routine, flat.2]
    rfl
  obtain ⟨-, -, faults⟩ := routine_relaxes_walk moves (Linked.fresh_coherent _) {} r text
    ⟨-3, ⟨#[7, 9]⟩, #[], 0, #[]⟩
  obtain ⟨ends, -, -⟩ := routine_relaxes_walk moves (Linked.fresh_coherent _) {} r text
    ⟨-1, ⟨#[7, 9]⟩, #[], 0, #[]⟩
  obtain ⟨-, forever, -⟩ := routine_relaxes_walk loops (Linked.fresh_coherent _) {} busy text'
    ⟨-1, ⟨#[7, 9]⟩, #[], 0, #[]⟩
  refine ⟨⟨Linked.fresh_coherent _, Linked.fresh_coherent _, text, text'⟩, ?_,
    ends .finished _ (fun _ => Ending.noConfusion) ⟨3, rfl⟩, forever ?_⟩
  · rcases faults (.offTape (-2) 2) _ ⟨1, rfl⟩ with reached | ended
    · exact reached
    · have wrote : ∃ fuel, r.run fuel ⟨-3, ⟨#[7, 9]⟩, #[], 0, #[]⟩ =
          some ⟨.finished, ⟨-2, ⟨#[7, 9]⟩, #[], 0, #[7]⟩⟩ := ⟨3, rfl⟩
      cases Ends.unique ended wrote
  · have rounds (fuel : Nat) : runFor Walk.step fuel
        ⟨.stop, [⟨.stop, .stop⟩], ⟨-1, ⟨#[7, 9]⟩, #[], 0, #[]⟩⟩ = none := by
      induction fuel with
      | zero => rfl
      | succ fuel ih => exact ih
    intro fuel
    cases fuel with
    | zero => rfl
    | succ fuel => exact rounds fuel

end TapeChain
