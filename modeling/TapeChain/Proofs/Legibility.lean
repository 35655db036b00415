import TapeChain.Proofs.Layout

/-! A routine is told from its text. Statements are told apart by the first characters of their first
lines, and a block ends where a line goes back to an outer level or starts like no statement; so the
lines of a block have one reading, whatever stands behind them. -/
namespace TapeChain

/-! ### The first line of a statement -/

namespace Code

/-- What the first lines of the different statements start with, in nine characters. -/
def openings : List (List Char) :=
  [Phrase.forward.before, Phrase.back.before, Phrase.add.before, Phrase.write, Phrase.read,
   Phrase.loop, Phrase.call.before].map fun text => text.toList.take 9

/-- No two statements start alike. -/
theorem idxOf_opening : ∀ i : Fin 7, openings.idxOf (openings.get i) = i := by decide

/-- The place of the first statement's kind in the list; behind its end if there is no statement. -/
def kind : Code → Nat
  | .forward _ _ => 0
  | .back _ _ => 1
  | .add _ _ => 2
  | .write _ => 3
  | .read _ _ => 4
  | .loop _ _ => 5
  | .call _ _ => 6
  | .done => 7

end Code

/-- The kind of statement that starts at the first line. -/
def Line.kind (level : Nat) : List Line → Nat
  | [] => 7
  | line :: _ =>
    if line.level = level then Code.openings.idxOf (line.text.toList.take 9) else 7

/-- Lines that can follow the statements of a block: they go back to an outer level, or start with
something else than a statement. -/
structure Line.Closes (level : Nat) (lines : List Line) : Prop where
  outer : ∀ line ∈ lines.head?, line.level ≤ level
  kind : Line.kind level lines = 7

theorem Line.kind_text (level : Nat) (text : String) (lines : List Line) :
    Line.kind level (⟨level, text⟩ :: lines) = Code.openings.idxOf (text.toList.take 9) :=
  if_pos rfl

theorem Line.kind_around (level : Nat) {a : Around} (long : 9 ≤ a.before.toList.length) (n : Nat)
    (lines : List Line) : Line.kind level (⟨level, a.text n⟩ :: lines) =
      Code.openings.idxOf (a.before.toList.take 9) := by
  rw [Line.kind_text, Around.text, String.append_assoc, String.toList_append,
    List.take_append_of_le_length long]

/-- The number in a line is told from the line. -/
theorem Around.text_inj {a : Around} {n k : Nat} (same : a.text n = a.text k) : n = k := by
  have h : toString n = toString k :=
    String.append_right_inj _ |>.mp (String.append_left_inj _ |>.mp same)
  rw [Nat.toString_eq_ofList_toDigits, Nat.toString_eq_ofList_toDigits, String.ofList_inj] at h
  rw [← Nat.ofDigitChars_ten_toDigits (n := n), h, Nat.ofDigitChars_ten_toDigits]

/-! ### Blocks -/

namespace Code

theorem kind_lines (c : Code) {level : Nat} {tail : List Line} (closes : Line.Closes level tail) :
    Line.kind level (c.lines level ++ tail) = c.kind := by
  cases c with
  | done => exact closes.kind
  | forward cells rest => exact (Line.kind_around level (by decide) cells _).trans (idxOf_opening 0)
  | back cells rest => exact (Line.kind_around level (by decide) cells _).trans (idxOf_opening 1)
  | add delta rest =>
      exact (Line.kind_around level (by decide) delta.toNat _).trans (idxOf_opening 2)
  | write rest => exact (Line.kind_text _ _ _).trans (idxOf_opening 3)
  | read exit rest => exact (Line.kind_text _ _ _).trans (idxOf_opening 4)
  | loop body rest => exact (Line.kind_text _ _ _).trans (idxOf_opening 5)
  | call helper rest => exact (Line.kind_around level (by decide) helper _).trans (idxOf_opening 6)

/-- Behind statements of one level stands the end of a block of the next. -/
theorem closes_lines (c : Code) {level : Nat} {tail : List Line} (closes : Line.Closes level tail) :
    Line.Closes (level + 1) (c.lines level ++ tail) := by
  have flat : ∀ line ∈ (c.lines level ++ tail).head?, line.level ≤ level := by
    cases c with
    | done => exact closes.outer
    | _ =>
        rintro line ⟨⟩
        exact Nat.le_refl level
  refine ⟨fun line first => Nat.le_succ_of_le (flat line first), ?_⟩
  cases h : c.lines level ++ tail with
  | nil => rfl
  | cons line rest =>
      have low : line.level ≤ level := flat line (by rw [h]; rfl)
      exact if_neg (by omega)

theorem kind_eq {c c' : Code} {level : Nat} {tail tail' : List Line}
    (closes : Line.Closes level tail) (closes' : Line.Closes level tail')
    (same : c.lines level ++ tail = c'.lines level ++ tail') : c.kind = c'.kind := by
  rw [← c.kind_lines closes, same, c'.kind_lines closes']

theorem block_eq {body : Code} (filled : body ≠ .done) (level : Nat) :
    blockOf level (body.lines level) = body.lines level := by
  cases body with
  | done => exact absurd rfl filled
  | _ => rfl

theorem block_inj {body body' : Code} {level : Nat} {tail tail' : List Line}
    (closes : Line.Closes level tail) (closes' : Line.Closes level tail')
    (unique : body.lines level ++ tail = body'.lines level ++ tail' → body = body' ∧ tail = tail')
    (same : blockOf level (body.lines level) ++ tail = blockOf level (body'.lines level) ++ tail') :
    body = body' ∧ tail = tail' := by
  have pass (tail : List Line) : Line.kind level (⟨level, Phrase.pass⟩ :: tail) = 7 :=
    (Line.kind_text _ _ _).trans (by decide)
  have kinds (c : Code) {tail : List Line} (closes : Line.Closes level tail) :
      Line.kind level (blockOf level (c.lines level) ++ tail) = c.kind := by
    by_cases empty : c = .done
    · rw [empty]
      exact pass tail
    · rw [block_eq empty, c.kind_lines closes]
  have alike : body.kind = body'.kind := by rw [← kinds body closes, same, kinds body' closes']
  by_cases empty : body = .done
  · subst empty
    cases body' with
    | done => exact ⟨rfl, (List.cons.inj same).2⟩
    | _ => cases alike
  · by_cases empty' : body' = .done
    · subst empty'
      cases body with
      | done => exact absurd rfl empty
      | _ => cases alike
    · rw [block_eq empty, block_eq empty'] at same
      exact unique same

/-- Statements are told from their lines, whatever stands behind their block. -/
theorem lines_inj {c c' : Code} {level : Nat} {tail tail' : List Line}
    (closes : Line.Closes level tail) (closes' : Line.Closes level tail')
    (same : c.lines level ++ tail = c'.lines level ++ tail') : c = c' ∧ tail = tail' := by
  -- The kinds agree, so only the lines of equal constructors are left to be compared.
  induction c generalizing c' level tail tail' with
  | done =>
      have kinds := kind_eq closes closes' same
      cases c' with
      | done => exact ⟨rfl, same⟩
      | _ => cases kinds
  | forward cells rest ih =>
      have kinds := kind_eq closes closes' same
      cases c' with
      | forward cells' rest' =>
          simp only [lines, List.cons_append, List.cons.injEq, Line.mk.injEq, true_and] at same
          obtain ⟨number, others⟩ := same
          obtain ⟨rfl, ends⟩ := ih closes closes' others
          exact ⟨by rw [Around.text_inj number], ends⟩
      | _ => cases kinds
  | back cells rest ih =>
      have kinds := kind_eq closes closes' same
      cases c' with
      | back cells' rest' =>
          simp only [lines, List.cons_append, List.cons.injEq, Line.mk.injEq, true_and] at same
          obtain ⟨number, others⟩ := same
          obtain ⟨rfl, ends⟩ := ih closes closes' others
          exact ⟨by rw [Around.text_inj number], ends⟩
      | _ => cases kinds
  | add delta rest ih =>
      have kinds := kind_eq closes closes' same
      cases c' with
      | add delta' rest' =>
          simp only [lines, List.cons_append, List.cons.injEq, Line.mk.injEq, true_and] at same
          obtain ⟨number, others⟩ := same
          obtain ⟨rfl, ends⟩ := ih closes closes' others
          exact ⟨by rw [UInt8.toNat_inj.mp (Around.text_inj number)], ends⟩
      | _ => cases kinds
  | write rest ih =>
      have kinds := kind_eq closes closes' same
      cases c' with
      | write rest' =>
          obtain ⟨rfl, ends⟩ := ih closes closes' (List.cons.inj same).2
          exact ⟨rfl, ends⟩
      | _ => cases kinds
  | read exit rest ih =>
      have kinds := kind_eq closes closes' same
      cases c' with
      | read exit' rest' =>
          simp only [lines, List.cons_append, List.cons.injEq, Line.mk.injEq, true_and] at same
          obtain ⟨leaves, others⟩ := same
          obtain ⟨rfl, ends⟩ := ih closes closes' others
          have exits : exit = exit' := by
            revert leaves
            cases exit <;> cases exit' <;> decide
          exact ⟨by rw [exits], ends⟩
      | _ => cases kinds
  | loop body rest ihBody ihRest =>
      have kinds := kind_eq closes closes' same
      cases c' with
      | loop body' rest' =>
          simp only [lines, List.cons_append, List.cons.injEq, true_and, List.append_assoc] at same
          obtain ⟨rfl, others⟩ := block_inj (rest.closes_lines closes) (rest'.closes_lines closes')
            (ihBody (rest.closes_lines closes) (rest'.closes_lines closes')) same
          obtain ⟨rfl, ends⟩ := ihRest closes closes' others
          exact ⟨rfl, ends⟩
      | _ => cases kinds
  | call helper rest ih =>
      have kinds := kind_eq closes closes' same
      cases c' with
      | call helper' rest' =>
          simp only [lines, List.cons_append, List.cons.injEq, Line.mk.injEq, true_and] at same
          obtain ⟨number, others⟩ := same
          obtain ⟨rfl, ends⟩ := ih closes closes' others
          exact ⟨by rw [Around.text_inj number], ends⟩
      | _ => cases kinds

end Code

theorem Line.Closes.of_outer {level : Nat} {line : Line} (outer : line.level < level)
    (lines : List Line) : Line.Closes level (line :: lines) := by
  refine ⟨?_, if_neg (Nat.ne_of_lt outer)⟩
  rintro first ⟨⟩
  exact Nat.le_of_lt outer

/-! ### Whole routines -/

/-- The definitions of the helpers are told from their lines, and so is the main routine. -/
theorem Helper.definitions_inj {hs hs' : List Helper} {main main' : List Line}
    (same : (hs.map Helper.definition).flatMap Definition.lines ++
        blankLine :: blankLine :: runHeader :: main =
      (hs'.map Helper.definition).flatMap Definition.lines ++
        blankLine :: blankLine :: runHeader :: main') : hs = hs' ∧ main = main' := by
  have other (d : Definition) : d.header ≠ runHeader := by
    intro same
    have text := congrArg (fun line : Line => line.text.toList.take 5) same
    simp only [Definition.header, runHeader, Around.text] at text
    rw [String.append_assoc, String.toList_append, List.take_append_of_le_length (by decide)] at text
    exact absurd text (by decide)
  induction hs generalizing hs' with
  | nil =>
      cases hs' with
      | nil => exact ⟨rfl, by simpa using same⟩
      | cons h' hs' =>
          simp only [List.map_cons, List.map_nil, List.flatMap_cons, List.flatMap_nil, List.nil_append,
            Definition.lines, List.cons_append, List.cons.injEq, true_and] at same
          exact absurd same.1.symm (other _)
  | cons h hs ih =>
      cases hs' with
      | nil =>
          simp only [List.map_cons, List.map_nil, List.flatMap_cons, List.flatMap_nil, List.nil_append,
            Definition.lines, List.cons_append, List.cons.injEq, true_and] at same
          exact absurd same.1 (other _)
      | cons h' hs' =>
          simp only [List.map_cons, List.flatMap_cons, Definition.lines, List.cons_append,
            List.cons.injEq, true_and, Helper.definition, List.append_assoc, Definition.header,
            Line.mk.injEq] at same
          obtain ⟨number, body⟩ := same
          have closes (lines : List Line) : Line.Closes 2 (⟨1, Phrase.leave⟩ :: lines) :=
            .of_outer (by decide) lines
          obtain ⟨bodies, others⟩ := Code.block_inj (closes _) (closes _)
            (Code.lines_inj (closes _) (closes _)) body
          obtain ⟨rfl, ends⟩ := ih (List.cons.inj others).2
          have first : h = h' := by
            cases h
            cases h'
            simp only [Helper.mk.injEq]
            exact ⟨Around.text_inj number, bodies⟩
          exact ⟨by rw [first], ends⟩

namespace Routine

theorem closes_return : Line.Closes 1 [⟨1, Phrase.leave⟩] := by
  refine ⟨?_, by decide⟩
  rintro first ⟨⟩
  exact Nat.le_refl 1

/-- A guard is not taken for a statement. -/
theorem guard_ne (body : Code) (lines : List Line) :
    body.lines 1 ++ [⟨1, Phrase.leave⟩] ≠ ⟨1, Phrase.guard⟩ :: lines := by
  intro same
  have other : body.kind = 7 := by
    rw [← body.kind_lines closes_return, same]
    exact (Line.kind_text _ _ _).trans (by decide)
  cases body with
  | done => exact absurd (List.cons.inj same).1 (by decide)
  | _ => cases other

theorem main_inj {r r' : Routine} (same : r.mainLines = r'.mainLines) :
    r.guarded = r'.guarded ∧ r.body = r'.body := by
  have caught (lines : List Line) : Line.Closes 2 (⟨1, Phrase.caught⟩ :: lines) :=
    .of_outer (by decide) lines
  rw [mainLines, mainLines, List.append_assoc, List.append_assoc, List.append_cancel_left_eq,
    bodyLines, bodyLines] at same
  cases guards : r.guarded with
  | true =>
      cases guards' : r'.guarded with
      | true =>
          simp only [guards, guards', if_true, List.cons_append, List.append_assoc, List.cons.injEq,
            true_and] at same
          have bodies := Code.block_inj (caught _) (caught _)
            (Code.lines_inj (caught _) (caught _)) same
          exact ⟨rfl, bodies.1⟩
      | false =>
          simp only [guards, guards', if_true, Bool.false_eq_true, if_false, List.cons_append] at same
          exact absurd same.symm (guard_ne _ _)
  | false =>
      cases guards' : r'.guarded with
      | true =>
          simp only [guards, guards', if_true, Bool.false_eq_true, if_false, List.cons_append] at same
          exact absurd same (guard_ne _ _)
      | false =>
          simp only [guards, guards', Bool.false_eq_true, if_false] at same
          exact ⟨rfl, (Code.lines_inj closes_return closes_return same).1⟩

/-- Two routines with one text are one routine. -/
theorem eq_of_text {r r' : Routine} (same : r.text = r'.text) : r = r' := by
  have lines : r.lines = r'.lines := by rw [← r.ofText_text, same, r'.ofText_text]
  rw [r.lines_eq, r'.lines_eq, List.append_assoc, List.append_assoc] at lines
  obtain ⟨helpers, main⟩ := Helper.definitions_inj (List.append_cancel_left lines)
  obtain ⟨guards, bodies⟩ := main_inj main
  cases r
  cases r'
  simp only [Routine.mk.injEq]
  exact ⟨helpers, guards, bodies⟩

end Routine

end TapeChain
