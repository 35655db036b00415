import TapeChain.Proofs.Relaxation
import TapeChain.Proofs.Source

/-! Program text and its commands alone. A comment does nothing, but it cuts a run of pointer steps
in two, and the pointer has to stand on the tape at the cut. So the commands alone are at most as
strict as the text: the plain machine goes through both abreast, up to a fault of the text. -/
namespace TapeChain

namespace Program

/-- Whether a character does anything. -/
def isCommand (c : Char) : Bool := ['>', '<', '+', '-', '.', ',', '[', ']'].contains c

def commands (cs : List Char) : List Char := cs.filter isCommand

/-- The text without its comments. -/
def uncommented (text : String) : String := String.ofList (commands text.toList)

theorem isCommand_eq (c : Char) : isCommand c = (Token.ofChar? c).isSome := by
  unfold Token.ofChar?
  split <;> simp_all [isCommand]

@[simp] theorem commands_nil : commands [] = [] := rfl

@[simp] theorem commands_append (u w : List Char) : commands (u ++ w) = commands u ++ commands w :=
  List.filter_append u w

theorem commands_command {c : Char} (h : isCommand c) (cs : List Char) :
    commands (c :: cs) = c :: commands cs := List.filter_cons_of_pos h

theorem commands_comment {c : Char} (h : isCommand c = false) (cs : List Char) :
    commands (c :: cs) = commands cs := List.filter_cons_of_neg (ne_true_of_eq_false h)

theorem isCommand_comment {c : Char} (h : Token.ofChar? c = none) : isCommand c = false := by
  rw [isCommand_eq, h, Option.isSome_none]

theorem isCommand_axis {a : Axis} {c : Char} (h : a.has c) : isCommand c = true := by
  rw [isCommand_eq, Axis.ofChar?_eq h, Option.isSome_some]

theorem length_uncommented_le (text : String) : (uncommented text).length ≤ text.length := by
  rw [uncommented, String.length_ofList, ← String.length_toList]
  exact List.length_filter_le _ _

theorem brackets_commands (cs : List Char) : brackets (commands cs) = brackets cs := by
  rw [brackets, commands, List.filter_filter, brackets]
  refine List.filter_congr fun c _ => ?_
  by_cases bracket : c = '[' ∨ c = ']'
  · rcases bracket with rfl | rfl <;> rfl
  · simp [not_or.mp bracket]

theorem read_uncommented {text : String} {p : Program} (h : read text = .ok p) :
    ∃ p', read (uncommented text) = .ok p' := by
  have same : brackets (uncommented text).toList = brackets text.toList := by
    rw [uncommented, String.toList_ofList, brackets_commands]
  have balanced : (mismatch? (uncommented text)).isNone := by
    rw [isNone_mismatch?_of_brackets same]
    rw [read_eq] at h
    split at h
    · cases h
    · next matched => rw [matched]; rfl
  refine ⟨ofTokens (Token.scan (uncommented text)), ?_⟩
  rw [read_eq, Option.isNone_iff_eq_none.mp balanced]

end Program

open Program (isCommand commands isCommand_axis commands_append commands_command commands_comment)

/-! ### Partners, with and without comments -/

namespace Matched

variable {deeper shallower : Char} {before rest w : List Char}

theorem commands (h : Matched '[' ']' w) : Matched '[' ']' (Program.commands w) := by
  induction h with
  | nil => exact .nil
  | @plain c w hopen hclose _ ih =>
      cases hc : isCommand c with
      | true => exact commands_command hc w ▸ .plain hopen hclose ih
      | false => exact commands_comment hc w ▸ ih
  | nest _ _ ihBody ihRest =>
      rw [commands_command rfl, commands_append, commands_command rfl]
      exact .nest ihBody ihRest

/-- In matched text, what stands behind a bracket that opens goes up to its partner. -/
theorem partner (apart : deeper ≠ shallower)
    (h : Matched deeper shallower (before ++ deeper :: rest)) :
    ∃ w after, rest = w ++ shallower :: after ∧ Matched deeper shallower w := by
  generalize whole : before ++ deeper :: rest = text at h
  induction h generalizing before rest with
  | nil => exact absurd whole (by simp)
  | @plain c w hd _ _ ih =>
      cases before with
      | nil => exact absurd (List.cons.inj whole).1.symm hd
      | cons _ before => exact ih (List.cons.inj whole).2
  | @nest b w hb _ ihBody ihRest =>
      cases before with
      | nil => exact ⟨b, w, (List.cons.inj whole).2, hb⟩
      | cons _ before =>
          -- the bracket stands in what the first pair encloses or behind it
          rcases List.append_eq_append_iff.mp (List.cons.inj whole).2 with
            ⟨x, body, tail⟩ | ⟨x, front, tail⟩
          · cases x with
            | nil => exact absurd (List.cons.inj tail).1 apart
            | cons _ x =>
                obtain ⟨rfl, rfl⟩ := List.cons.inj tail
                obtain ⟨u, after, rfl, hu⟩ := ihBody body.symm
                exact ⟨u, after ++ shallower :: w, by simp, hu⟩
          · cases x with
            | nil => exact absurd (List.cons.inj tail).1.symm apart
            | cons _ x => exact ihRest (List.cons.inj tail).2.symm

theorem partner_of_closing (h : Matched '[' ']' (before ++ ']' :: rest)) :
    ∃ start w, before = start ++ '[' :: w ∧ Matched '[' ']' w := by
  have turned : Matched ']' '[' (rest.reverse ++ ']' :: before.reverse) := by
    simpa using h.reverse
  obtain ⟨w, start, split, hw⟩ := turned.partner (by decide)
  refine ⟨start.reverse, w.reverse, ?_, hw.reverse⟩
  simpa using congrArg List.reverse split

end Matched

namespace Cursor

variable {text before rest : List Char} {c : Char} {m : Machine}

/-- One cursor in the commands and one in the text, at the same command and with equal machines. -/
structure Abreast (text : List Char) (s t : Cursor) : Prop where
  machine : s.machine = t.machine
  place : ∃ before rest, text = before ++ rest ∧ s.index = (commands before).length ∧
    t.index = before.length

theorem Abreast.of_split (before rest : List Char) (m : Machine) :
    Abreast (before ++ rest) ⟨(commands before).length, m⟩ ⟨before.length, m⟩ :=
  ⟨rfl, before, rest, rfl, rfl, rfl⟩

theorem Abreast.next (h : isCommand c) (before rest : List Char) (m : Machine) :
    Abreast (before ++ c :: rest) ⟨(commands before).length + 1, m⟩ ⟨before.length + 1, m⟩ := by
  refine ⟨rfl, before ++ [c], rest, by simp, ?_, by simp⟩
  rw [commands_append, commands_command h, List.length_append]
  rfl

theorem proceed_alike {i j : Nat} (place : ∀ m, Abreast text ⟨i, m⟩ ⟨j, m⟩) (e : Effect) :
    Alike (Abreast text) (proceed i e) (proceed j e) := by
  cases e with
  | done m => exact .more (place m)
  | dry m => exact .ended _
  | fault f m => exact .ended _

theorem branch_alike {i j k l : Nat} (onZero : Abreast text ⟨i, m⟩ ⟨j, m⟩)
    (otherwise : Abreast text ⟨k, m⟩ ⟨l, m⟩) : Alike (Abreast text) (branch i k m) (branch j l m) := by
  unfold branch
  split
  · exact .ended _
  · split
    · exact .more onZero
    · exact .more otherwise

/-- An action is the same in both. -/
theorem yields_action (h : isCommand c) (e : Effect) (acts : ∀ before rest : List Char,
      step (before ++ c :: rest) ⟨before.length, m⟩ = proceed (before.length + 1) e)
    (rank : Cursor → Nat) :
    Yields (step (commands before ++ c :: commands rest)) Cursor.machine
      (Abreast (before ++ c :: rest)) rank ⟨(commands before).length, m⟩ ⟨before.length, m⟩
      (step (before ++ c :: rest) ⟨before.length, m⟩) := by
  apply Answers.yields
  apply Answers.one
  rw [acts, acts]
  exact proceed_alike (.next h before rest) e

/-- A run of pointer steps that goes on in the text goes on in the commands. -/
theorem pointer_ahead (h : (rest.head?).any isPointerStep) :
    ((commands rest).head?).any isPointerStep := by
  cases rest with
  | nil => cases h
  | cons c rest =>
      rw [commands_command (isCommand_axis (a := .pointer) h)]
      exact h

theorem yields_pointer (h : Axis.pointer.has c) (rank : Cursor → Nat) :
    Yields (step (commands before ++ c :: commands rest)) Cursor.machine
      (Abreast (before ++ c :: rest)) rank ⟨(commands before).length, m⟩ ⟨before.length, m⟩
      (step (before ++ c :: rest) ⟨before.length, m⟩) := by
  have here : step (commands before ++ c :: commands rest) ⟨(commands before).length, m⟩ = _ :=
    step_pointer h
  rw [step_pointer h]
  simp only [glide, lookup_next] at here ⊢
  generalize ({ m with address := m.address + Axis.pointer.step c } : Machine) = m' at here ⊢
  split
  · next goes =>
      have goes' : ((commands rest).head?.any isPointerStep || (value? m').isSome) = true := by
        rcases Bool.or_eq_true_iff.mp goes with ahead | on
        · rw [pointer_ahead ahead, Bool.true_or]
        · rw [on, Bool.or_true]
      rw [if_pos goes'] at here
      exact .inl ⟨0, _, .one here, .next (isCommand_axis h) before rest m'⟩
  · -- the commands may go on where the text is cut
    split at here
    · exact .inr ⟨_, 1, _, rfl, .one here, rfl⟩
    · exact .inl (.of_ended here)

theorem step_opening {w after : List Char} (h : Matched '[' ']' w) :
    step (before ++ '[' :: (w ++ ']' :: after)) ⟨before.length, m⟩ =
      branch ((before ++ '[' :: (w ++ [']'])).length) (before.length + 1) m := by
  have behind : before.length + 1 + w.length + 1 = (before ++ '[' :: (w ++ [']'])).length := by
    simp only [List.length_append, List.length_cons, List.length_nil]
    omega
  simp only [step, lookup, List.head?_cons, closingOf_eq h, behind]

theorem step_closing {w after : List Char} (h : Matched '[' ']' w) :
    step ((before ++ '[' :: w) ++ ']' :: after) ⟨(before ++ '[' :: w).length, m⟩ =
      branch ((before ++ '[' :: w).length + 1) (before.length + 1) m := by
  have back : openingOf ((before ++ '[' :: w) ++ ']' :: after) (before ++ '[' :: w).length =
      before.length := by
    have size : (before ++ '[' :: w).length = before.length + 1 + w.length := by
      simp only [List.length_append, List.length_cons]
      omega
    rw [size, List.append_assoc, List.cons_append, openingOf_eq h]
  simp only [step, lookup, List.head?_cons, back]

theorem alike_opening (matched : Matched '[' ']' (before ++ '[' :: rest)) :
    Alike (Abreast (before ++ '[' :: rest))
      (step (commands before ++ '[' :: commands rest) ⟨(commands before).length, m⟩)
      (step (before ++ '[' :: rest) ⟨before.length, m⟩) := by
  obtain ⟨w, after, rfl, hw⟩ := matched.partner (by decide)
  rw [commands_append, commands_command (c := ']') rfl, step_opening hw, step_opening hw.commands]
  refine branch_alike ⟨rfl, before ++ '[' :: (w ++ [']']), after, by simp, ?_, rfl⟩
    (.next rfl _ _ m)
  simp only [commands_append, commands_command (c := '[') rfl, commands_command (c := ']') rfl,
    Program.commands_nil]

theorem alike_closing (matched : Matched '[' ']' (before ++ ']' :: rest)) :
    Alike (Abreast (before ++ ']' :: rest))
      (step (commands before ++ ']' :: commands rest) ⟨(commands before).length, m⟩)
      (step (before ++ ']' :: rest) ⟨before.length, m⟩) := by
  obtain ⟨start, w, rfl, hw⟩ := matched.partner_of_closing
  have inside : Abreast ((start ++ '[' :: w) ++ ']' :: rest) ⟨(commands start).length + 1, m⟩
      ⟨start.length + 1, m⟩ := by
    simpa using Abreast.next (c := '[') rfl start (w ++ ']' :: rest) m
  have behind := Abreast.next (c := ']') rfl (start ++ '[' :: w) rest m
  rw [commands_append, commands_command (c := '[') rfl] at behind ⊢
  rw [step_closing hw, step_closing hw.commands]
  exact branch_alike behind inside

/-- The commands alone follow the text, and are at most as strict. At a comment they wait, but only as
long as there is text ahead. -/
theorem commands_relax (matched : Matched '[' ']' text) :
    Relaxes (step (commands text)) (step text) Cursor.machine (Abreast text)
      (fun t => text.length - t.index) := by
  rintro ⟨_, m⟩ ⟨_, _⟩ ⟨rfl, before, rest, rfl, rfl, rfl⟩
  cases rest with
  | nil =>
      have finished (before : List Char) : step (before ++ []) ⟨before.length, m⟩ =
          .ended ⟨.finished, m⟩ := by
        simp only [step, lookup, List.head?_nil]
      rw [finished, commands_append]
      exact .inl (.of_ended (finished _))
  | cons c rest =>
      rcases Token.ofChar?_cases c with comment | ⟨a, h⟩ | rfl | rfl | rfl | rfl
      · rw [step_comment comment]
        refine .inr ⟨⟨rfl, before ++ [c], rest, by simp, ?_, by simp⟩, ?_⟩
        · simp only [commands_append, commands_comment (Program.isCommand_comment comment),
            Program.commands_nil, List.append_nil]
        · simp only [List.length_append, List.length_cons]
          omega
      · rw [commands_append, commands_command (isCommand_axis h)]
        cases a with
        | pointer => exact yields_pointer h _
        | data =>
            obtain ⟨f, -, acts⟩ := step_data_eq_change h
            exact yields_action (isCommand_axis h) (change f m) (fun before rest => acts before rest m) _
      · rw [commands_append, commands_command rfl]
        refine yields_action rfl (give m) ?_ _
        intro before rest
        simp only [step, lookup, List.head?_cons]
      · rw [commands_append, commands_command rfl]
        refine yields_action rfl (take m) ?_ _
        intro before rest
        simp only [step, lookup, List.head?_cons]
      · rw [commands_append, commands_command rfl]
        exact (Answers.one (alike_opening matched)).yields
      · rw [commands_append, commands_command rfl]
        exact (Answers.one (alike_closing matched)).yields

-- The commands may well go on where the text is cut.
example : runText 3 "< >" ⟨0, .blank 1, #[], 0, #[]⟩ =
      some ⟨.fault (.offTape (-1) 1), ⟨-1, .blank 1, #[], 0, #[]⟩⟩ ∧
    runText 3 "<>" ⟨0, .blank 1, #[], 0, #[]⟩ = some ⟨.finished, ⟨0, .blank 1, #[], 0, #[]⟩⟩ := by
  decide

end Cursor

/-! ### Compiled text -/

/-- The run from the start of the tape ends because a move went off the tape. -/
def Executable.RunsOff (x : Executable) (m : Machine) : Prop :=
  ∃ fuel address size m', x.run fuel m = .ok (some ⟨.fault (.offTape address size), m'⟩)

section
variable {text : String} {p : Program} {m : Machine}

theorem Executable.run_ends_iff_cursor (config : Config) (reads : Program.read text = .ok p)
    (short : text.length < 2147483648) (cells : 0 < m.tape.size) (o : Outcome) :
    (∃ fuel, Executable.run fuel ⟨p.lower, config⟩ m = .ok (some o)) ↔
      Ends (Cursor.step text.toList) ⟨0, { m with address := 0 }⟩ o := by
  have on : ({ m with address := 0 } : Machine).onTape := Machine.onTape_start cells
  have spelled : Reads text.toList p.lower.chain [] := by
    rw [p.lower_chain]
    exact Program.reads_of_read reads
  simp only [Executable.run_of_cells cells, Except.ok.injEq]
  rw [Executable.enter_ends_iff_walk p.lower_coherent on]
  exact (spelled.ends_iff_walk short on o).symm

/-- The only faults of compiled text are moves off the tape. -/
theorem Executable.runsOff_iff_cursor (config : Config) (reads : Program.read text = .ok p)
    (short : text.length < 2147483648) (cells : 0 < m.tape.size) :
    Executable.RunsOff ⟨p.lower, config⟩ m ↔
      ∃ o f, Ends (Cursor.step text.toList) ⟨0, { m with address := 0 }⟩ o ∧ o.ending = .fault f := by
  have on : ({ m with address := 0 } : Machine).onTape := Machine.onTape_start cells
  constructor
  · rintro ⟨fuel, address, size, m', run⟩
    exact ⟨_, _, (run_ends_iff_cursor config reads short cells _).mp ⟨fuel, run⟩, rfl⟩
  · rintro ⟨⟨_, m'⟩, f, ends, rfl⟩
    have walk := ((Program.reads_of_read reads).ends_iff_walk short on _).mp ends
    have off : f = .offTape m'.address m.tape.size := (Walk.ends_safe on walk).2.1
    subst off
    obtain ⟨fuel, run⟩ := (run_ends_iff_cursor config reads short cells _).mpr ends
    exact ⟨fuel, _, _, m', run⟩

end

/-- Taking out the comments does no harm. If a text is a program, so are its commands alone, and on
every tape with a cell, on either engine, a run of the text that does not go off the tape is the run
of the commands: it ends if and only if that one ends, with the same ending, pointer, tape, output
and input position. So the commands go off the tape only if the text does. -/
theorem uncommented_text_runs_alike (config : Config) (text : String) (p : Program)
    (reads : Program.read text = .ok p) (short : text.length < 2147483648) :
    ∃ x notice x' notice', Executable.compile config text = .ok (x, notice) ∧
      Executable.compile config (Program.uncommented text) = .ok (x', notice') ∧
      ∀ m : Machine, 0 < m.tape.size →
        (¬ x.RunsOff m → ∀ o, (∃ fuel, x'.run fuel m = .ok (some o)) ↔
          ∃ fuel, x.run fuel m = .ok (some o)) ∧
        (x'.RunsOff m → x.RunsOff m) := by
  obtain ⟨p', reads'⟩ := Program.read_uncommented reads
  have short' : (Program.uncommented text).length < 2147483648 :=
    Nat.lt_of_le_of_lt (Program.length_uncommented_le text) short
  refine ⟨⟨p.lower, config⟩, _, ⟨p'.lower, config⟩, _, by rw [Executable.compile, reads]; rfl,
    by rw [Executable.compile, reads']; rfl, ?_⟩
  intro m cells
  have matched : Matched '[' ']' text.toList := by
    obtain ⟨w, whole, hw⟩ := (Program.reads_of_read reads).split
    rw [whole, List.append_nil]
    exact hw
  have relax := Cursor.commands_relax matched
  have start := Cursor.Abreast.of_split [] text.toList { m with address := 0 }
  have stripped : (Program.uncommented text).toList = commands text.toList := String.toList_ofList
  rw [Executable.runsOff_iff_cursor config reads short cells,
    Executable.runsOff_iff_cursor config reads' short' cells]
  simp only [Executable.run_ends_iff_cursor config reads short cells,
    Executable.run_ends_iff_cursor config reads' short' cells, stripped]
  refine ⟨fun clean o => ?_, ?_⟩
  · exact relax.ends_iff start fun o f ends faulty => clean ⟨o, f, ends, faulty⟩
  · rintro ⟨o, f, ends, faulty⟩
    exact relax.fault_of_left start ends faulty

/-- At the blank the pointer stands on the tape, so the loop runs alike without it. -/
theorem cut_loop_uncommented :
    let config : Config := { backend := .interpreted }
    let m : Machine := ⟨0, .blank 2, #[], 0, #[]⟩
    let o : Outcome := ⟨.finished, ⟨0, .blank 2, #[], 0, #[0]⟩⟩
    let p : Program := .add 1 (.loop (.move 1 (.move (-1) (.add (-1) .done))) (.output .done))
    Program.read "+[> <-]." = .ok p ∧ Program.uncommented "+[> <-]." = "+[><-]." ∧
      ∃ x notice x' notice', Executable.compile config "+[> <-]." = .ok (x, notice) ∧
        Executable.compile config "+[><-]." = .ok (x', notice') ∧ ¬ x.RunsOff m ∧
        (∃ fuel, x.run fuel m = .ok (some o)) ∧ ∃ fuel, x'.run fuel m = .ok (some o) := by
  intro config m o p
  have reads : Program.read "+[> <-]." = .ok p := by cbv
  have bare : Program.uncommented "+[> <-]." = "+[><-]." := by
    have letters : commands "+[> <-].".toList = "+[><-].".toList := by decide
    rw [Program.uncommented, letters, String.ofList_toList]
  obtain ⟨x, notice, x', notice', compiled, compiled', alike⟩ :=
    uncommented_text_runs_alike config _ _ reads (by decide)
  rw [bare] at compiled'
  have cursor : Ends (Cursor.step "+[> <-].".toList) ⟨0, m⟩ o := ⟨12, by decide⟩
  have same : x = ⟨p.lower, config⟩ := by
    rw [Executable.compile, reads] at compiled
    exact (congrArg Prod.fst (Except.ok.inj compiled)).symm
  have ends : ∃ fuel, x.run fuel m = .ok (some o) := by
    rw [same, Executable.run_ends_iff_cursor config reads (by decide) (by decide)]
    exact cursor
  have stays : ¬ x.RunsOff m := by
    rw [same, Executable.runsOff_iff_cursor config reads (by decide) (by decide)]
    rintro ⟨o', f, ends', faulty⟩
    rw [← cursor.unique ends'] at faulty
    cases faulty
  exact ⟨reads, bare, x, notice, x', notice', compiled, compiled', stays, ends,
    ((alike m (by decide)).1 stays o).mpr ends⟩

end TapeChain
