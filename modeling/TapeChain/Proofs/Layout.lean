import TapeChain.Proofs.Helpers
import TapeChain.Routine.Text

/-! The text of a routine, read line by line. It divides into a prelude, the definitions of the helpers
and the main routine. The text is closed: what is called is defined, and before it is called from
another definition; the signal that input is used up is raised in helpers only, and where there are
helpers, all statements of the main routine stand under the guard that catches it. -/
namespace TapeChain

/-! ### Lines and the text they make -/

namespace Line

/-- A line as it stands in a text, with four blanks for each level. -/
def ofChars (cs : List Char) : Line :=
  ⟨(cs.takeWhile (· = ' ')).length / 4, String.ofList (cs.dropWhile (· = ' '))⟩

/-- The lines of a text, each of them closed by a line feed. -/
def ofText (text : String) : List Line := (text.toList.splitOn '\n').dropLast.map ofChars

/-- Nothing in the text of a line is taken for indentation or for the end of the line. -/
def Plain (text : String) : Prop := text.toList.head? ≠ some ' ' ∧ '\n' ∉ text.toList

instance (text : String) : Decidable (Plain text) := inferInstanceAs (Decidable (_ ∧ _))

theorem toList_render (l : Line) :
    l.render.toList = List.replicate (4 * l.level) ' ' ++ l.text.toList := by
  have blanks (n : Nat) :
      (List.replicate n "    ").flatMap String.toList = List.replicate (4 * n) ' ' := by
    induction n with
    | zero => rfl
    | succ n ih =>
        rw [List.replicate_succ, List.flatMap_cons, ih, Nat.mul_succ, Nat.add_comm,
          ← List.replicate_append_replicate]
        rfl
  rw [render, String.toList_append, String.toList_join, blanks]

theorem ofChars_render {l : Line} (plain : Plain l.text) : ofChars l.render.toList = l := by
  obtain ⟨level, text⟩ := l
  have stop : ∀ c ∈ text.toList.head?, ¬ c = ' ' := by
    rintro c first rfl
    exact plain.1 first
  have front : text.toList.takeWhile (· = ' ') = [] ∧
      text.toList.dropWhile (· = ' ') = text.toList := by
    cases h : text.toList with
    | nil => exact ⟨rfl, rfl⟩
    | cons c cs =>
        have other : ¬ c = ' ' := stop c (by rw [h]; rfl)
        simp only [List.takeWhile_cons, List.dropWhile_cons, other, decide_false, Bool.false_eq_true,
          if_false, and_self]
  rw [ofChars, toList_render, List.takeWhile_append_of_pos (by simp),
    List.dropWhile_append_of_pos (by simp), front.1, front.2, String.ofList_toList,
    List.append_nil, List.length_replicate, Nat.mul_div_cancel_left level (by decide)]

/-- The rows of the text that plain lines make; nothing stands behind the last line feed. -/
theorem splitOn_join {ls : List Line} (plain : ∀ l ∈ ls, Plain l.text) :
    (String.join (ls.map fun l => l.render ++ "\n")).toList.splitOn '\n' =
      ls.map (fun l => l.render.toList) ++ [[]] := by
  rw [String.toList_join, List.flatMap_map]
  induction ls with
  | nil => rfl
  | cons l ls ih =>
      obtain ⟨first, others⟩ := List.forall_mem_cons.mp plain
      have solid : ∀ c ∈ l.render.toList, (c == '\n') = false := by
        intro c mem
        rw [toList_render] at mem
        rw [beq_eq_false_iff_ne]
        rintro rfl
        rcases List.mem_append.mp mem with blank | body
        · exact absurd (List.eq_of_mem_replicate blank) (by decide)
        · exact first.2 body
      -- what stands before the first line feed is the first line
      rw [List.flatMap_cons, String.toList_append, List.append_assoc]
      change List.splitOnP (· == '\n') (l.render.toList ++ '\n' :: _) = _
      rw [List.splitOnP_append_cons_of_forall_mem solid '\n' rfl]
      exact congrArg _ (ih others)

/-- Plain lines are read back from the text that they make. -/
theorem ofText_join {ls : List Line} (plain : ∀ l ∈ ls, Plain l.text) :
    ofText (String.join (ls.map fun l => l.render ++ "\n")) = ls := by
  rw [ofText, splitOn_join plain, List.dropLast_concat, List.map_map]
  conv_rhs => rw [← List.map_id ls]
  exact List.map_congr_left fun l mem => ofChars_render (plain l mem)

end Line

/-- A character that is no digit stands in no number. -/
theorem Around.not_mem_text {c : Char} {a : Around} (letter : c.isDigit = false)
    (front : c ∉ a.before.toList) (back : c ∉ a.behind.toList) (n : Nat) : c ∉ (a.text n).toList := by
  rw [text, String.toList_append, String.toList_append, List.mem_append, List.mem_append]
  rintro ((mem | mem) | mem)
  · exact front mem
  · have digit : c.isDigit = true :=
      Nat.isDigit_of_mem_toDigits (by decide) (by decide) (String.toList_ofList ▸ mem)
    rw [letter] at digit
    cases digit
  · exact back mem

theorem Around.head_text {c : Char} {a : Around} (first : a.before.toList.head? = some c) (n : Nat) :
    (a.text n).toList.head? = some c := by
  rw [text, String.append_assoc, String.toList_append, List.head?_append, first]
  rfl

/-! ### What a line can say -/

namespace Code

/-- How the reads among the statements leave. -/
def exits : Code → List DryExit
  | .done => []
  | .forward _ rest | .back _ rest | .add _ rest | .write rest | .call _ rest => rest.exits
  | .read exit rest => exit :: rest.exits
  | .loop body rest => body.exits ++ rest.exits

/-- The numbers of the helpers that the statements call. -/
def calls : Code → List Nat
  | .done => []
  | .forward _ rest | .back _ rest | .add _ rest | .write rest | .read _ rest => rest.calls
  | .loop body rest => body.calls ++ rest.calls
  | .call number rest => number :: rest.calls

end Code

theorem Inlines.exits {helpers : List Helper} {guarded : Bool} {exit : DryExit} {code code' : Code}
    (h : Inlines helpers guarded exit code code') : ∀ e ∈ code.exits, e = exit := by
  induction h with
  | done => exact List.forall_mem_nil _
  | forward _ _ ih => exact ih
  | back _ _ ih => exact ih
  | add _ _ ih => exact ih
  | write _ ih => exact ih
  | read _ ih => exact List.forall_mem_cons.mpr ⟨rfl, ih⟩
  | loop _ _ ihBody ihRest => exact List.forall_mem_append.mpr ⟨ihBody, ihRest⟩
  | call _ _ _ _ _ ihRest => exact ihRest

theorem Inlines.calls {helpers : List Helper} {guarded : Bool} {exit : DryExit} {code code' : Code}
    (h : Inlines helpers guarded exit code code') :
    ∀ number ∈ code.calls, number ∈ helpers.map Helper.number := by
  induction h with
  | done => exact List.forall_mem_nil _
  | forward _ _ ih => exact ih
  | back _ _ ih => exact ih
  | add _ _ ih => exact ih
  | write _ ih => exact ih
  | read _ ih => exact ih
  | loop _ _ ihBody ihRest => exact List.forall_mem_append.mpr ⟨ihBody, ihRest⟩
  | call _ found _ _ _ ihRest =>
      exact List.forall_mem_cons.mpr ⟨List.mem_map.mpr ⟨_, found, rfl⟩, ihRest⟩

/-- The lines of statements that have no number in them and do not leave. -/
def fixedTexts : List String :=
  [Phrase.pastEnd, Phrase.beforeStart, Phrase.refuse, Phrase.write, Phrase.read, Phrase.dry,
   Phrase.store, Phrase.loop, Phrase.pass]

/-- The lines that move and add. -/
def numberTexts : List Around := [Phrase.forward, Phrase.back, Phrase.add]

/-- The lines of statements whose reads leave by `exits` and whose calls are `calls`. -/
inductive Allows (exits : List DryExit) (calls : List Nat) : String → Prop
  | fixed {text} : text ∈ fixedTexts → Allows exits calls text
  | number {around : Around} (n : Nat) : around ∈ numberTexts → Allows exits calls (around.text n)
  | exit {exit} : exit ∈ exits → Allows exits calls exit.text
  | call {number} : number ∈ calls → Allows exits calls (Phrase.call.text number)

namespace Allows

variable {exits exits' : List DryExit} {calls calls' : List Nat} {text : String}

theorem mono (h : Allows exits calls text) (leave : exits ⊆ exits') (call : calls ⊆ calls') :
    Allows exits' calls' text := by
  cases h with
  | fixed mem => exact .fixed mem
  | number n mem => exact .number n mem
  | exit mem => exact .exit (leave mem)
  | call mem => exact .call (call mem)

theorem plain (h : Allows exits calls text) : Line.Plain text := by
  cases h with
  | fixed mem =>
      have all : ∀ text ∈ fixedTexts, Line.Plain text := by decide
      exact all text mem
  | @number around n mem =>
      have all : ∀ around ∈ numberTexts, (around.before.toList.head? = some 'a' ∨
          around.before.toList.head? = some 'm') ∧
            '\n' ∉ around.before.toList ∧ '\n' ∉ around.behind.toList := by
        decide
      obtain ⟨first, front, back⟩ := all around mem
      refine ⟨?_, Around.not_mem_text rfl front back n⟩
      rcases first with first | first
      · rw [Around.head_text first]
        decide
      · rw [Around.head_text first]
        decide
  | @exit exit _ =>
      cases exit with
      | leave => decide
      | signal => decide
  | @call number _ =>
      refine ⟨?_, Around.not_mem_text rfl (by decide) (by decide) number⟩
      have first : (Phrase.call.text number).toList.head? = some 'a' :=
        Around.head_text (by decide) number
      rw [first]
      decide

end Allows

/-- The name of some helper stands in the line. -/
def Line.NamesHelper (text : String) : Prop := "_loop_".toList <:+: text.toList

/-- The line raises the signal that input is used up. -/
def Line.Halts (text : String) : Prop := "raise _Halt".toList <:+: text.toList

instance (text : String) : Decidable (Line.NamesHelper text) := inferInstanceAs (Decidable (_ <:+: _))

instance (text : String) : Decidable (Line.Halts text) := inferInstanceAs (Decidable (_ <:+: _))

section
variable {exits : List DryExit} {calls : List Nat} {text : String}

theorem Allows.call_of_names (h : Allows exits calls text) (names : Line.NamesHelper text) :
    ∃ number ∈ calls, text = Phrase.call.text number := by
  cases h with
  | fixed mem =>
      have nameless : ∀ text ∈ fixedTexts, ¬ Line.NamesHelper text := by decide +kernel
      exact absurd names (nameless text mem)
  | @number around n mem =>
      -- an underscore is no digit, and there is none around the number
      have nameless : ∀ around ∈ numberTexts,
          '_' ∉ around.before.toList ∧ '_' ∉ around.behind.toList := by decide
      obtain ⟨front, back⟩ := nameless around mem
      exact absurd (names.subset (List.mem_of_elem_eq_true rfl)) (Around.not_mem_text rfl front back n)
  | @exit exit _ =>
      cases exit with
      | leave => exact absurd names (by decide +kernel)
      | signal => exact absurd names (by decide +kernel)
  | @call number mem => exact ⟨number, mem, rfl⟩

theorem Allows.signal_of_halts (h : Allows exits calls text) (halts : Line.Halts text) :
    .signal ∈ exits := by
  cases h with
  | fixed mem =>
      have silent : ∀ text ∈ fixedTexts, ¬ Line.Halts text := by decide +kernel
      exact absurd halts (silent text mem)
  | @number around n mem =>
      have silent : ∀ around ∈ numberTexts,
          'H' ∉ around.before.toList ∧ 'H' ∉ around.behind.toList := by decide
      obtain ⟨front, back⟩ := silent around mem
      exact absurd (halts.subset (List.mem_of_elem_eq_true rfl)) (Around.not_mem_text rfl front back n)
  | @exit exit mem =>
      cases exit with
      | leave => exact absurd halts (by decide +kernel)
      | signal => exact mem
  | @call number _ =>
      have silent : 'H' ∉ (Phrase.call.text number).toList :=
        Around.not_mem_text rfl (by decide) (by decide) number
      exact absurd (halts.subset (List.mem_of_elem_eq_true rfl)) silent

end

theorem mem_blockOf {level : Nat} {lines : List Line} {line : Line} (h : line ∈ blockOf level lines) :
    line ∈ lines ∨ line = ⟨level, Phrase.pass⟩ := by
  cases lines with
  | nil => exact .inr (List.mem_singleton.mp h)
  | cons first rest => exact .inl h

theorem blockOf_ne_nil (level : Nat) (lines : List Line) : blockOf level lines ≠ [] := by
  cases lines with
  | nil => exact List.cons_ne_nil _ _
  | cons first rest => exact List.cons_ne_nil _ _

/-- The line says what the statements can say, at their level or a deeper one. -/
def Line.Within (code : Code) (level : Nat) (line : Line) : Prop :=
  level ≤ line.level ∧ Allows code.exits code.calls line.text

theorem Line.Within.fixed {code : Code} {level deeper : Nat} {text : String}
    (deep : level ≤ deeper) (mem : text ∈ fixedTexts) : Line.Within code level ⟨deeper, text⟩ :=
  ⟨deep, .fixed mem⟩

namespace Code

variable {level : Nat}

theorem blockOf_within {code : Code} {lines : List Line} (h : ∀ line ∈ lines, line.Within code level) :
    ∀ line ∈ blockOf level lines, line.Within code level := by
  intro line mem
  rcases mem_blockOf mem with mem | rfl
  · exact h line mem
  · exact .fixed (Nat.le_refl _) (by decide)

theorem lines_within (code : Code) (level : Nat) : ∀ line ∈ code.lines level, line.Within code level := by
  induction code generalizing level with
  | done => exact List.forall_mem_nil _
  | forward cells rest ih =>
      simp only [lines, List.forall_mem_cons]
      exact ⟨⟨Nat.le_refl _, .number cells (by decide)⟩, .fixed (Nat.le_refl _) (by decide),
        .fixed (Nat.le_succ _) (by decide), ih level⟩
  | back cells rest ih =>
      simp only [lines, List.forall_mem_cons]
      exact ⟨⟨Nat.le_refl _, .number cells (by decide)⟩, .fixed (Nat.le_refl _) (by decide),
        .fixed (Nat.le_succ _) (by decide), ih level⟩
  | add delta rest ih =>
      simp only [lines, List.forall_mem_cons]
      exact ⟨⟨Nat.le_refl _, .number delta.toNat (by decide)⟩, ih level⟩
  | write rest ih =>
      simp only [lines, List.forall_mem_cons]
      exact ⟨.fixed (Nat.le_refl _) (by decide), ih level⟩
  | read exit rest ih =>
      simp only [lines, List.forall_mem_cons]
      refine ⟨.fixed (Nat.le_refl _) (by decide), .fixed (Nat.le_refl _) (by decide),
        ⟨Nat.le_succ _, .exit (.head _)⟩, .fixed (Nat.le_refl _) (by decide), ?_⟩
      intro line mem
      obtain ⟨deep, allowed⟩ := ih level line mem
      exact ⟨deep, allowed.mono (List.subset_cons_self _ _) (List.Subset.refl _)⟩
  | loop body rest ihBody ihRest =>
      simp only [lines, List.forall_mem_cons, List.forall_mem_append]
      refine ⟨.fixed (Nat.le_refl _) (by decide), ?_, ?_⟩
      · intro line mem
        obtain ⟨deep, allowed⟩ := blockOf_within (ihBody (level + 1)) line mem
        exact ⟨Nat.le_of_succ_le deep,
          allowed.mono (List.subset_append_left _ _) (List.subset_append_left _ _)⟩
      · intro line mem
        obtain ⟨deep, allowed⟩ := ihRest level line mem
        exact ⟨deep, allowed.mono (List.subset_append_right _ _) (List.subset_append_right _ _)⟩
  | call number rest ih =>
      simp only [lines, List.forall_mem_cons]
      refine ⟨⟨Nat.le_refl _, .call (.head _)⟩, ?_⟩
      intro line mem
      obtain ⟨deep, allowed⟩ := ih level line mem
      exact ⟨deep, allowed.mono (List.Subset.refl _) (List.subset_cons_self _ _)⟩

end Code

/-! ### The parts of the text -/

/-- The definition of a helper in a text: the number in its name and the lines of its body. -/
structure Definition where
  number : Nat
  body : List Line

def Definition.header (d : Definition) : Line := ⟨0, Phrase.helper.text d.number⟩

def Definition.lines (d : Definition) : List Line := blankLine :: blankLine :: d.header :: d.body

/-- The main routine whose statements all stand under the guard. -/
def guardedLines (statements : List Line) : List Line :=
  setupLines ++ ⟨1, Phrase.guard⟩ :: statements ++
    [⟨1, Phrase.caught⟩, ⟨2, Phrase.leaveCaught⟩, ⟨1, Phrase.leave⟩]

/-- The text divides into a prelude, definitions of helpers and a main routine, and it is closed. -/
structure Closed (text : String) (deep : Prop) (helpers : List Definition) (main : List Line) :
    Prop where
  divides : Line.ofText text =
    preludeLines ++ helpers.flatMap Definition.lines ++ blankLine :: blankLine :: runHeader :: main
  -- no line of a body stands at the margin, so that indentation makes the division
  bodies : (∀ d ∈ helpers, ∀ line ∈ d.body, 1 ≤ line.level) ∧ ∀ line ∈ main, 1 ≤ line.level
  hoists : helpers ≠ [] ↔ deep
  -- each of the first numbers belongs to one helper, in whatever order
  numbered : (helpers.map Definition.number).Perm (List.range helpers.length)
  names : (∀ line ∈ runHeader :: preludeLines, ¬ Line.NamesHelper line.text) ∧
    ∀ line ∈ main, Line.NamesHelper line.text →
      ∃ d ∈ helpers, line.text = Phrase.call.text d.number
  earlier : ∀ {before d after}, helpers = before ++ d :: after →
    ∀ line ∈ d.body, Line.NamesHelper line.text → ∃ e ∈ before, line.text = Phrase.call.text e.number
  -- all lines but those of the helpers' bodies
  halts : ∀ line ∈ preludeLines ++ helpers.map Definition.header ++ runHeader :: main,
    ¬ Line.Halts line.text
  caught : helpers ≠ [] → ∃ statements ≠ [], (∀ line ∈ statements, 2 ≤ line.level) ∧
    main = guardedLines statements

def Helper.definition (h : Helper) : Definition :=
  ⟨h.number, ⟨1, Phrase.loop⟩ :: (blockOf 2 (h.body.lines 2) ++ [⟨1, Phrase.leave⟩])⟩

namespace Routine

def mainLines (r : Routine) : List Line := setupLines ++ r.bodyLines ++ [⟨1, Phrase.leave⟩]

theorem lines_eq (r : Routine) : r.lines = preludeLines ++
    (r.helpers.map Helper.definition).flatMap Definition.lines ++
      blankLine :: blankLine :: runHeader :: r.mainLines := by
  simp only [lines, mainLines, List.flatMap_map, List.append_assoc]
  rfl

theorem mem_mainLines {r : Routine} {line : Line} (mem : line ∈ r.mainLines) :
    line ∈ guardedLines [] ∨ line.Within r.body 1 := by
  have some_of_all {part : List Line} (sub : part.Sublist (guardedLines [])) (mem : line ∈ part) :
      line ∈ guardedLines [] ∨ line.Within r.body 1 := .inl (sub.subset mem)
  rcases List.mem_append.mp mem with mem | mem
  · rcases List.mem_append.mp mem with mem | mem
    · exact some_of_all (by decide) mem
    · unfold bodyLines at mem
      split at mem
      · rcases List.mem_cons.mp mem with rfl | mem
        · exact some_of_all (by decide) (List.mem_singleton.mpr rfl)
        · rcases List.mem_append.mp mem with mem | mem
          · obtain ⟨deep, allowed⟩ := Code.blockOf_within (r.body.lines_within 2) line mem
            exact .inr ⟨Nat.le_of_succ_le deep, allowed⟩
          · exact some_of_all (by decide) mem
      · exact .inr (r.body.lines_within 1 line mem)
  · exact some_of_all (by decide) mem

end Routine

theorem Helper.mem_definition {h : Helper} {line : Line} (mem : line ∈ h.definition.body) :
    1 ≤ line.level ∧ Allows (.leave :: h.body.exits) h.body.calls line.text := by
  rcases List.mem_cons.mp mem with rfl | mem
  · exact ⟨Nat.le_refl _, .fixed (by decide)⟩
  · rcases List.mem_append.mp mem with mem | mem
    · obtain ⟨deep, allowed⟩ := Code.blockOf_within (h.body.lines_within 2) line mem
      exact ⟨Nat.le_of_succ_le deep, allowed.mono (List.subset_cons_self _ _) (List.Subset.refl _)⟩
    · rw [List.mem_singleton.mp mem]
      exact ⟨Nat.le_refl _, .exit (.head _)⟩

theorem Routine.plain_lines (r : Routine) : ∀ line ∈ r.lines, Line.Plain line.text := by
  rw [r.lines_eq]
  simp only [List.forall_mem_append, List.forall_mem_cons, List.mem_flatMap, List.mem_map]
  refine ⟨⟨by decide, ?_⟩, by decide, by decide, by decide, ?_⟩
  · rintro line ⟨_, ⟨h, _, rfl⟩, mem⟩
    have header : Line.Plain h.definition.header.text :=
      ⟨by rw [Definition.header, Around.head_text rfl]; decide,
        Around.not_mem_text rfl (by decide) (by decide) h.number⟩
    rcases List.mem_cons.mp mem with rfl | mem
    · decide
    rcases List.mem_cons.mp mem with rfl | mem
    · decide
    rcases List.mem_cons.mp mem with rfl | mem
    · exact header
    · exact (Helper.mem_definition mem).2.plain
  · intro line mem
    have around : ∀ line ∈ guardedLines [], Line.Plain line.text := by decide
    rcases mem_mainLines mem with mem | within
    · exact around line mem
    · exact within.2.plain

theorem Routine.ofText_text (r : Routine) : Line.ofText r.text = r.lines :=
  Line.ofText_join r.plain_lines

section
variable {l : Linked} (coherent : l.Coherent) (config : Config)
include coherent

theorem Linked.main_names {line : Line} (mem : line ∈ (l.routine config).mainLines)
    (names : Line.NamesHelper line.text) :
    ∃ h ∈ (l.routine config).helpers, line.text = Phrase.call.text h.number := by
  have around : ∀ line ∈ guardedLines [], ¬ Line.NamesHelper line.text := by decide +kernel
  rcases Routine.mem_mainLines mem with mem | within
  · exact absurd names (around line mem)
  · obtain ⟨number, called, same⟩ := within.2.call_of_names names
    have defined := (l.routine_serves coherent config).inlines.calls number called
    obtain ⟨h, mem, rfl⟩ := List.mem_map.mp defined
    exact ⟨h, mem, same⟩

theorem Linked.helper_names {earlier later : List Helper} {helper : Helper}
    (same : (l.routine config).helpers = earlier ++ helper :: later) {line : Line}
    (mem : line ∈ helper.definition.body) (names : Line.NamesHelper line.text) :
    ∃ h ∈ earlier, line.text = Phrase.call.text h.number := by
  obtain ⟨plain, inlines⟩ := l.helper_calls_earlier coherent config same
  obtain ⟨number, called, text⟩ := (Helper.mem_definition mem).2.call_of_names names
  obtain ⟨h, before, rfl⟩ := List.mem_map.mp (inlines.calls number called)
  exact ⟨h, before, text⟩

theorem Linked.main_not_halts {line : Line} (mem : line ∈ (l.routine config).mainLines) :
    ¬ Line.Halts line.text := by
  intro halts
  have around : ∀ line ∈ guardedLines [], ¬ Line.Halts line.text := by decide +kernel
  rcases Routine.mem_mainLines mem with mem | within
  · exact around line mem halts
  · have leaves := (l.routine_serves coherent config).inlines.exits
    exact absurd (leaves .signal (within.2.signal_of_halts halts)) (by decide)

end

theorem Helper.header_not_halts (h : Helper) : ¬ Line.Halts h.definition.header.text := by
  intro halts
  have silent : 'H' ∉ h.definition.header.text.toList :=
    Around.not_mem_text rfl (by decide) (by decide) h.number
  exact silent (halts.subset (List.mem_of_elem_eq_true rfl))

theorem Routine.mainLines_guarded {r : Routine} (guarded : r.guarded = true) :
    r.mainLines = guardedLines (blockOf 2 (r.body.lines 2)) := by
  simp only [mainLines, bodyLines, guarded, if_true, guardedLines, List.append_assoc,
    List.cons_append, List.nil_append]

/-- The text of a chain's routine is closed, whatever the sharing in the chain and the inline
depth. -/
theorem routine_text_closed (l : Linked) (coherent : l.Coherent) (config : Config) :
    ∃ helpers main,
      Closed (l.routine config).text (config.inlineDepth < l.chain.depth) helpers main := by
  have hoists := l.helpers_ne_nil_iff coherent config
  refine ⟨(l.routine config).helpers.map Helper.definition, (l.routine config).mainLines, ?_⟩
  constructor
  case divides => rw [Routine.ofText_text, Routine.lines_eq]
  case bodies =>
    constructor
    · intro d mem line inside
      obtain ⟨h, -, rfl⟩ := List.mem_map.mp mem
      exact (Helper.mem_definition inside).1
    · intro line mem
      have around : ∀ line ∈ guardedLines [], 1 ≤ line.level := by decide
      rcases Routine.mem_mainLines mem with mem | within
      · exact around line mem
      · exact within.1
  case hoists => rwa [ne_eq, List.map_eq_nil_iff]
  case numbered =>
    rw [List.map_map, List.length_map]
    exact l.helpers_perm_range coherent config
  case names =>
    refine ⟨by decide +kernel, ?_⟩
    intro line mem names
    obtain ⟨h, defined, same⟩ := l.main_names coherent config mem names
    exact ⟨h.definition, List.mem_map_of_mem defined, same⟩
  case earlier =>
    intro before d after same line mem names
    obtain ⟨earlier, rest, split, rfl, tail⟩ := List.map_eq_append_iff.mp same
    obtain ⟨helper, later, rfl, rfl, -⟩ := List.map_eq_cons_iff.mp tail
    obtain ⟨h, defined, text⟩ := l.helper_names coherent config split mem names
    exact ⟨h.definition, List.mem_map_of_mem defined, text⟩
  case halts =>
    simp only [List.forall_mem_append, List.forall_mem_cons]
    refine ⟨⟨by decide +kernel, ?_⟩, by decide +kernel, ?_⟩
    · intro line mem
      simp only [List.map_map, List.mem_map] at mem
      obtain ⟨h, -, rfl⟩ := mem
      exact h.header_not_halts
    · intro line mem
      exact l.main_not_halts coherent config mem
  case caught =>
    intro present
    have guarded : (l.routine config).guarded = true :=
      decide_eq_true (hoists.mp (mt List.map_eq_nil_iff.mpr present))
    refine ⟨_, blockOf_ne_nil _ _, ?_, Routine.mainLines_guarded guarded⟩
    intro line mem
    exact (Code.blockOf_within ((l.routine config).body.lines_within 2) line mem).1

/-- Two loops that hold the same loop: the guard takes the one level there is, so that each of the
three nodes has a helper, and the inner one is called from two others. -/
theorem equal_loops_text_closed :
    (Program.loop (.loop (.input .done) .done)
        (.output (.loop (.loop (.input .done) .done) .done))).lower.Coherent ∧
      ∃ helpers main, helpers ≠ [] ∧
        Closed ((Program.loop (.loop (.input .done) .done)
            (.output (.loop (.loop (.input .done) .done) .done))).lower.routine
              { inlineDepth := 1 }).text
          (1 < (Program.loop (.loop (.input .done) .done)
            (.output (.loop (.loop (.input .done) .done) .done))).lower.chain.depth) helpers main := by
  have coherent := Program.lower_coherent (.loop (.loop (.input .done) .done)
    (.output (.loop (.loop (.input .done) .done) .done)))
  obtain ⟨helpers, main, closed⟩ := routine_text_closed _ coherent { inlineDepth := 1 }
  refine ⟨coherent, helpers, main, closed.hoists.mpr ?_, closed⟩
  rw [Program.lower_chain, Chain.depth_eq_nesting]
  decide

end TapeChain
