import TapeChain.Executable
import TapeChain.Proofs.Backend
import TapeChain.Proofs.Operand
import TapeChain.Proofs.Stepwise

/-! Compiled text ends as the plain machine does. One node of a chain stands for a whole run of
characters, so the plain machine takes one step or more where the walk takes one: single steps of the
pointer may leave the tape and come back, single additions add up modulo 256, and comments and
brackets are passed on the way. -/
namespace TapeChain

namespace Cursor

variable {text before rest : List Char} {c : Char} {m : Machine}

theorem lookup (before rest : List Char) : (before ++ rest)[before.length]? = rest.head? := by
  rw [List.getElem?_append_right (Nat.le_refl _), Nat.sub_self, List.head?_eq_getElem?]

theorem lookup_next (before rest : List Char) (c : Char) :
    (before ++ c :: rest)[before.length + 1]? = rest.head? := by
  rw [List.getElem?_append_right (Nat.le_add_right _ _), Nat.add_sub_cancel_left,
    List.getElem?_cons_succ, List.head?_eq_getElem?]

theorem step_comment (h : Token.ofChar? c = none) :
    step (before ++ c :: rest) ⟨before.length, m⟩ = .more ⟨before.length + 1, m⟩ := by
  simp only [step, lookup, List.head?_cons]
  split <;> simp_all [Token.ofChar?]

theorem step_pointer (h : Axis.pointer.has c) :
    step (before ++ c :: rest) ⟨before.length, m⟩ =
      glide (before ++ c :: rest) (Axis.pointer.step c) ⟨before.length, m⟩ := by
  rcases Axis.has_iff.mp h with rfl | rfl <;> simp only [step, lookup, List.head?_cons] <;> rfl

theorem step_data_eq_change (h : Axis.data.has c) :
    ∃ f, (∀ value : UInt8,
        UInt8.ofNat (f value.toNat) = value + UInt8.ofInt (Axis.data.step c)) ∧
      ∀ before rest m, step (before ++ c :: rest) ⟨before.length, m⟩ =
        proceed (before.length + 1) (change f m) := by
  rcases Axis.has_iff.mp h with rfl | rfl
  · refine ⟨increment, ofNat_increment, fun before rest m => ?_⟩
    simp only [step, lookup, List.head?_cons]
    rfl
  · refine ⟨decrement, ofNat_decrement, fun before rest m => ?_⟩
    simp only [step, lookup, List.head?_cons]
    rfl

theorem step_data (h : Axis.data.has c) (on : m.onTape) :
    step (before ++ c :: rest) ⟨before.length, m⟩ =
      proceed (before.length + 1) (m.add (UInt8.ofInt (Axis.data.step c))) := by
  obtain ⟨f, adds, acts⟩ := step_data_eq_change h
  rw [acts, change_eq_add on adds]

/-! ### What a run of characters performs -/

/-- From `s` on, the text brings about an effect and, if the effect lets it, arrives at `index`. -/
def Performs (text : List Char) (s : Cursor) (index : Nat) : Effect → Prop
  | .done m => ∃ n, Steps (step text) (n + 1) s ⟨index, m⟩
  | .dry m => Ends (step text) s ⟨.exhausted, m⟩
  | .fault f m => Ends (step text) s ⟨.fault f, m⟩

theorem Performs.of_step {s : Cursor} {index : Nat} {e : Effect}
    (h : step text s = proceed index e) : Performs text s index e := by
  cases e with
  | done m => exact ⟨0, .one h⟩
  | dry m => exact .of_ended h
  | fault f m => exact .of_ended h

theorem Performs.after {s s' : Cursor} {index : Nat} {e : Effect} (first : step text s = .more s')
    (h : Performs text s' index e) : Performs text s index e := by
  cases e with
  | done m =>
      obtain ⟨n, path⟩ := h
      exact ⟨n + 1, .more first path⟩
  | dry m => exact (Steps.one first).ends_iff.mpr h
  | fault f m => exact (Steps.one first).ends_iff.mpr h

theorem isPointerStep_eq (c : Char) : isPointerStep c = Axis.pointer.has c := rfl

theorem step_pointer_last (h : Axis.pointer.has c) (stop : Axis.pointer.Ends rest) :
    step (before ++ c :: rest) ⟨before.length, m⟩ =
      proceed (before.length + 1) (m.shift (Axis.pointer.step c)) := by
  have ends : (rest.head?).any isPointerStep = false := by
    cases hc : rest.head? with
    | none => rfl
    | some x => simpa [isPointerStep_eq] using stop x hc
  rw [step_pointer h]
  simp only [glide, lookup_next, ends, Bool.false_or, isSome_value?, Machine.shift]
  split <;> rfl

/-- A step inside a run is not checked. -/
theorem step_pointer_inside {next : Char} (h : Axis.pointer.has c) (on : Axis.pointer.has next) :
    step (before ++ c :: next :: rest) ⟨before.length, m⟩ =
      .more ⟨before.length + 1, { m with address := m.address + Axis.pointer.step c }⟩ := by
  rw [step_pointer h]
  simp only [glide, lookup_next, List.head?_cons, Option.any_some, isPointerStep_eq, on,
    Bool.true_or, if_true]

/-- A run of pointer steps is one checked move. -/
theorem performs_pointer_run {run : List Char} (filled : run ≠ [])
    (steps : ∀ c ∈ run, Axis.pointer.has c) (stop : Axis.pointer.Ends rest) :
    Performs (before ++ (run ++ rest)) ⟨before.length, m⟩ (before.length + run.length)
      (m.shift (Axis.pointer.net run)) := by
  induction run generalizing before m with
  | nil => exact absurd rfl filled
  | cons c run ih =>
      have hc := steps c List.mem_cons_self
      rw [Axis.net_cons hc]
      cases run with
      | nil =>
          rw [Axis.net_nil, Int.add_zero]
          exact .of_step (step_pointer_last hc stop)
      | cons next run =>
          have hnext := steps next (List.mem_cons_of_mem _ List.mem_cons_self)
          refine .after (step_pointer_inside hc hnext) ?_
          have later := @ih (before ++ [c]) { m with address := m.address + Axis.pointer.step c }
            (List.cons_ne_nil _ _) (fun x hx => steps x (List.mem_cons_of_mem _ hx))
          rw [Machine.shift_shift] at later
          simpa only [List.append_assoc, List.cons_append, List.nil_append, List.length_append,
            List.length_cons, List.length_nil, Nat.add_assoc, Nat.zero_add, Nat.add_comm 1] using later

theorem performs_data_run {run : List Char} (filled : run ≠ []) (steps : ∀ c ∈ run, Axis.data.has c)
    (on : m.onTape) :
    Performs (before ++ (run ++ rest)) ⟨before.length, m⟩ (before.length + run.length)
      (m.add (UInt8.ofInt (Axis.data.net run))) := by
  induction run generalizing before m with
  | nil => exact absurd rfl filled
  | cons c run ih =>
      have hc := steps c List.mem_cons_self
      rw [Axis.net_cons hc]
      cases run with
      | nil =>
          rw [Axis.net_nil, Int.add_zero]
          exact .of_step (step_data hc on)
      | cons next run =>
          obtain ⟨m', first, on', both⟩ :=
            Machine.add_add_of_onTape on (UInt8.ofInt (Axis.data.step c))
          have step : step (before ++ c :: (next :: run ++ rest)) ⟨before.length, m⟩ =
              .more ⟨before.length + 1, m'⟩ := by
            rw [step_data hc on, first, proceed]
          refine .after step ?_
          have later := @ih (before ++ [c]) m' (List.cons_ne_nil _ _)
            (fun x hx => steps x (List.mem_cons_of_mem _ hx)) on'
          rw [both, ← UInt8.ofInt_add] at later
          simpa only [List.append_assoc, List.cons_append, List.nil_append, List.length_append,
            List.length_cons, List.length_nil, Nat.add_assoc, Nat.zero_add, Nat.add_comm 1] using later

/-! ### The plain machine follows the walk -/

/-- The loops a walk has entered and the text they stand in, from the bracket on that closes the
innermost one. -/
inductive Nested (text : List Char) : List Char → List Entered → Prop
  | nil : Nested text [] []
  | cons {before w after body next rest outer} : text = before ++ '[' :: (w ++ ']' :: after) →
      Reads (w ++ ']' :: after) body (']' :: after) → Reads after next rest →
      Nested text rest outer → Nested text (']' :: after) (⟨body, next⟩ :: outer)

/-- The cursor stands where the text spells what the walk has still to do. -/
structure Located (text : List Char) (s : Cursor) (w : Walk) : Prop where
  machine : s.machine = w.machine
  onTape : w.machine.onTape
  place : ∃ before cs rest, text = before ++ cs ∧ s.index = before.length ∧
    Reads cs w.node rest ∧ Nested text rest w.loops

theorem Performs.answers {s : Cursor} {index : Nat} {e : Effect} {w : Walk} {next : Chain}
    {loops : List Entered} {n : Nat} (safe : e.Safe n) (h : Performs text s index e)
    (place : ∃ before cs rest, text = before ++ cs ∧ index = before.length ∧
      Reads cs next rest ∧ Nested text rest loops) :
    Answers (step text) (Located text) (fun _ => 0) s w (Walk.proceed next loops e) := by
  cases e with
  | done m =>
      obtain ⟨n, path⟩ := h
      exact .inl ⟨n, _, path, ⟨rfl, safe.1, place⟩⟩
  | dry m => exact h
  | fault f m => exact h

/-- A merged run and its node have one effect. -/
theorem answers_run {a : Axis} {run : List Char} {chain : Chain} {tail : List Char}
    {loops : List Entered} (filled : run ≠ []) (steps : ∀ c ∈ run, a.has c) (stop : a.Ends rest)
    (reads : Reads rest chain tail) (nested : Nested (before ++ (run ++ rest)) tail loops)
    (short : (before ++ (run ++ rest)).length < 2147483648) (on : m.onTape) :
    Answers (step (before ++ (run ++ rest))) (Located (before ++ (run ++ rest))) (fun _ => 0)
      ⟨before.length, m⟩ ⟨a.node (.encode (a.net run)) chain, loops, m⟩
      (Walk.step ⟨a.node (.encode (a.net run)) chain, loops, m⟩) := by
  have place : ∃ before' cs rest', before ++ (run ++ rest) = before' ++ cs ∧
      before.length + run.length = before'.length ∧ Reads cs chain rest' ∧
      Nested (before ++ (run ++ rest)) rest' loops :=
    ⟨before ++ run, rest, tail, (List.append_assoc ..).symm, List.length_append.symm, reads, nested⟩
  cases a with
  | pointer =>
      have value : (Operand.encode (Axis.pointer.net run)).value = Axis.pointer.net run := by
        have bounds := Axis.pointer.net_bounds run
        simp only [List.length_append] at short
        apply Operand.value_encode
        · simp only [Operand.least]; omega
        · simp only [Operand.greatest]; omega
      simp only [Axis.node, Walk.step, value]
      exact (performs_pointer_run filled steps stop).answers (Machine.shift_safe m _) place
  | data =>
      simp only [Axis.node, Walk.step, Operand.byte_encode]
      exact (performs_data_run filled steps on).answers (Machine.add_safe on _) place

/-- At an opening bracket the text goes on inside the loop or behind its partner. -/
theorem answers_opening {w after rest : List Char} {body next : Chain} {loops : List Entered}
    (readsBody : Reads (w ++ ']' :: after) body (']' :: after)) (readsNext : Reads after next rest)
    (on : m.onTape) (nested : Nested (before ++ '[' :: (w ++ ']' :: after)) rest loops) :
    Answers (step (before ++ '[' :: (w ++ ']' :: after)))
      (Located (before ++ '[' :: (w ++ ']' :: after))) (fun _ => 0) ⟨before.length, m⟩
      ⟨.loop body next, loops, m⟩ (Walk.step ⟨.loop body next, loops, m⟩) := by
  obtain ⟨value, cell⟩ := Machine.cell?_of_onTape on
  have here : step (before ++ '[' :: (w ++ ']' :: after)) ⟨before.length, m⟩ =
      branch (before.length + 1 + w.length + 1) (before.length + 1) m := by
    simp only [step, lookup, List.head?_cons, closingOf_eq readsBody.matched]
  apply Answers.one
  by_cases zero : value = 0
  · simp only [here, branch_of_cell? on cell, Walk.step, cell, if_pos zero]
    refine .more ⟨rfl, on, before ++ '[' :: (w ++ [']']), after, rest, ?_, ?_, readsNext, nested⟩
    · simp only [List.append_assoc, List.cons_append, List.nil_append]
    · simp only [List.length_append, List.length_cons, List.length_nil]
      omega
  · simp only [here, branch_of_cell? on cell, Walk.step, cell, if_neg zero]
    refine .more ⟨rfl, on, before ++ ['['], w ++ ']' :: after, ']' :: after, ?_, ?_, readsBody,
      .cons rfl readsBody readsNext nested⟩
    · simp only [List.append_assoc, List.cons_append, List.nil_append]
    · simp only [List.length_append, List.length_cons, List.length_nil]

/-- At a closing bracket the text goes on behind it or behind its partner. -/
theorem answers_closing {after : List Char} {loops : List Entered} (on : m.onTape)
    (split : text = before ++ ']' :: after) (nested : Nested text (']' :: after) loops) :
    Answers (step text) (Located text) (fun _ => 0) ⟨before.length, m⟩ ⟨.stop, loops, m⟩
      (Walk.step ⟨.stop, loops, m⟩) := by
  -- the innermost entered loop is the one whose bracket stands here
  have whole := nested
  cases nested with
  | @cons start w _ body next rest outer place readsBody readsNext nestedOuter =>
      have same : before = start ++ '[' :: w := by
        have whole : before ++ ']' :: after = (start ++ '[' :: w) ++ ']' :: after := by
          rw [← split, place, List.append_assoc, List.cons_append]
        exact List.append_cancel_right whole
      obtain ⟨value, cell⟩ := Machine.cell?_of_onTape on
      have index : before.length = start.length + 1 + w.length := by
        simp only [same, List.length_append, List.length_cons]
        omega
      have here : step text ⟨before.length, m⟩ =
          branch (before.length + 1) (start.length + 1) m := by
        have back : openingOf text before.length = start.length := by
          rw [place, index, openingOf_eq readsBody.matched]
        have bracket : text[before.length]? = some ']' := by
          rw [split, lookup, List.head?_cons]
        simp only [step, bracket, back]
      apply Answers.one
      by_cases zero : value = 0
      · simp only [here, branch_of_cell? on cell, Walk.step, cell, if_pos zero]
        refine .more ⟨rfl, on, before ++ [']'], after, rest, ?_, ?_, readsNext, nestedOuter⟩
        · simp only [split, List.append_assoc, List.cons_append, List.nil_append]
        · simp only [List.length_append, List.length_cons, List.length_nil]
      · simp only [here, branch_of_cell? on cell, Walk.step, cell, if_neg zero]
        refine .more ⟨rfl, on, start ++ ['['], w ++ ']' :: after, ']' :: after, ?_, ?_, readsBody,
          whole⟩
        · simp only [place, List.append_assoc, List.cons_append, List.nil_append]
        · simp only [List.length_append, List.length_cons, List.length_nil]

theorem answers_of_reads {cs rest : List Char} {node : Chain} {loops : List Entered}
    (reads : Reads cs node rest) (split : text = before ++ cs) (short : text.length < 2147483648)
    (on : m.onTape) (nested : Nested text rest loops) :
    Answers (step text) (Located text) (fun _ => 0) ⟨before.length, m⟩ ⟨node, loops, m⟩
      (Walk.step ⟨node, loops, m⟩) := by
  induction reads generalizing before with
  | finish =>
      cases nested
      apply Answers.one
      have finished : step text ⟨before.length, m⟩ = .ended ⟨.finished, m⟩ := by
        simp only [split, step, lookup, List.head?_nil]
      rw [finished]
      exact .ended _
  | closing after => exact answers_closing on split nested
  | @comment c cs chain rest comment _ ih =>
      subst split
      refine .after (.one (step_comment comment)) ?_
      have later := @ih (before ++ [c]) (by simp) nested
      simpa using later
  | run filled steps stop reads _ =>
      subst split
      exact answers_run filled steps stop reads nested short on
  | @output cs chain rest reads _ =>
      subst split
      have acts : step (before ++ '.' :: cs) ⟨before.length, m⟩ =
          proceed (before.length + 1) m.write := by
        simp only [step, lookup, List.head?_cons, give_eq_write on]
      exact (Performs.of_step acts).answers (Machine.write_safe on)
        ⟨before ++ ['.'], cs, rest, by simp, by simp, reads, nested⟩
  | @input cs chain rest reads _ =>
      subst split
      have acts : step (before ++ ',' :: cs) ⟨before.length, m⟩ =
          proceed (before.length + 1) m.read := by
        simp only [step, lookup, List.head?_cons, take_eq_read on]
      exact (Performs.of_step acts).answers (Machine.read_safe on)
        ⟨before ++ [','], cs, rest, by simp, by simp, reads, nested⟩
  | loop readsBody readsNext _ _ =>
      obtain ⟨w, rfl, -⟩ := readsBody.split
      subst split
      exact answers_opening readsBody readsNext on nested

theorem follows_walk (short : text.length < 2147483648) :
    Follows (step text) Walk.step (Located text) (fun _ => 0) := by
  rintro ⟨index, m⟩ ⟨node, loops, _⟩ ⟨rfl, on, before, cs, rest, split, rfl, reads, nested⟩
  exact answers_of_reads reads split short on nested

end Cursor

theorem Reads.ends_iff_walk {text : String} {c : Chain} (reads : Reads text.toList c [])
    (short : text.length < 2147483648) {m : Machine} (on : m.onTape) (o : Outcome) :
    (∃ fuel, runText fuel text m = some o) ↔ ∃ fuel, c.walk fuel m = some o := by
  have short' : text.toList.length < 2147483648 := by
    rw [String.length_toList]
    exact short
  exact (Cursor.follows_walk short').ends_iff
    ⟨rfl, on, [], text.toList, [], rfl, rfl, reads, .nil⟩

/-- Whatever the engine, an executable ends as the walk of its chain. -/
theorem Executable.enter_ends_iff_walk {x : Executable} (coherent : x.code.Coherent) {m : Machine}
    (on : m.onTape) (o : Outcome) :
    (∃ fuel, x.enter fuel m = some o) ↔ ∃ fuel, x.chain.walk fuel m = some o := by
  obtain ⟨code, config⟩ := x
  cases hb : config.backend with
  | interpreted => simp only [enter, entry, hb, Entry.start]
  | compiled =>
      simp only [enter, entry, hb, Entry.start]
      exact code.routine_run_iff_walk coherent config on o

/-- Compiled text ends exactly as the plain machine on that text: with the same ending, pointer,
tape, output and input position, or not at all. This holds for every text that reads as a program,
every configuration and every tape with a cell, and such a tape is never refused. -/
theorem compile_run_iff_runText (config : Config) (text : String) (p : Program)
    (reads : Program.read text = .ok p) (short : text.length < 2147483648) :
    ∃ x notice, Executable.compile config text = .ok (x, notice) ∧ x.config = config ∧
      ∀ m : Machine, 0 < m.tape.size →
        (∀ fuel, ∃ r, x.run fuel m = .ok r) ∧
          ∀ o, (∃ fuel, x.run fuel m = .ok (some o)) ↔
            ∃ fuel, runText fuel text { m with address := 0 } = some o := by
  refine ⟨⟨p.lower, config⟩, _, by rw [Executable.compile, reads]; rfl, rfl, ?_⟩
  intro m cells
  have on : ({ m with address := 0 } : Machine).onTape = true :=
    Machine.onTape_iff.mpr ⟨Int.le_refl 0, Int.natCast_pos.mpr cells⟩
  have spelled : Reads text.toList p.lower.chain [] := by
    rw [p.lower_chain]
    exact Program.reads_of_read reads
  refine ⟨fun fuel => ⟨_, Executable.run_of_cells cells fuel⟩, ?_⟩
  intro o
  simp only [Executable.run_of_cells cells, Except.ok.injEq]
  rw [Executable.enter_ends_iff_walk p.lower_coherent on]
  exact (spelled.ends_iff_walk short on o).symm

/-- An excursion to the left of the tape, a comment, and a loop that writes what it reads, less one,
until the input ends; what is read from a zero is written as 255. -/
theorem echo_run_iff_runText :
    Program.read "<>x+[,-.]" =
        .ok (.move 0 (.add 1 (.loop (.input (.add (-1) (.output .done))) .done))) ∧
      ∃ x notice, Executable.compile {} "<>x+[,-.]" = .ok (x, notice) ∧ x.config = {} ∧
        (∃ fuel, x.run fuel ⟨3, ⟨#[7, 9]⟩, #[66, 0], 0, #[]⟩ =
          .ok (some ⟨.exhausted, ⟨0, ⟨#[255, 9]⟩, #[66, 0], 2, #[65, 255]⟩⟩)) ∧
        ∀ m : Machine, 0 < m.tape.size →
          (∀ fuel, ∃ r, x.run fuel m = .ok r) ∧
            ∀ o, (∃ fuel, x.run fuel m = .ok (some o)) ↔
              ∃ fuel, runText fuel "<>x+[,-.]" { m with address := 0 } = some o := by
  have reads : Program.read "<>x+[,-.]" =
      .ok (.move 0 (.add 1 (.loop (.input (.add (-1) (.output .done))) .done))) := by
    cbv
  obtain ⟨x, notice, compiled, same, agree⟩ := compile_run_iff_runText {} _ _ reads (by decide)
  have ends := ((agree ⟨3, ⟨#[7, 9]⟩, #[66, 0], 0, #[]⟩ (by decide)).2
    ⟨.exhausted, ⟨0, ⟨#[255, 9]⟩, #[66, 0], 2, #[65, 255]⟩⟩).mpr ⟨14, by decide⟩
  exact ⟨reads, x, notice, compiled, same, ends, agree⟩

end TapeChain
