import Mathlib.Data.List.Chain
import TapeChain.Proofs.Layout

/-! The indentation of a routine's text. Blocks are put together from lines, tests with a single line
under them, and loops whose bodies are blocks one level deeper; a body without lines is filled. Seen
from the text alone, every row that ends in a colon has a block under it, four blanks deeper, and a row
that goes back goes back to a block that is still open. -/
namespace TapeChain

/-! ### Rows -/

/-- The rows of a text, each of them closed by a line feed. -/
def rowsOf (text : String) : List (List Char) := (text.toList.splitOn '\n').dropLast

namespace Row

def indentation (row : List Char) : Nat := (row.takeWhile (· = ' ')).length

def Blank (row : List Char) : Prop := ∀ c ∈ row, c = ' '

/-- A block has to stand under the row. -/
def Opens (row : List Char) : Prop := row.getLast? = some ':'

instance (row : List Char) : Decidable (Blank row) :=
  inferInstanceAs (Decidable (∀ c ∈ row, c = ' '))

instance (row : List Char) : Decidable (Opens row) := inferInstanceAs (Decidable (_ = _))

/-- What may stand right under a row: a block, if the row opens one; else a row that is no deeper, or a
blank one. Only a row at the margin follows a blank one. -/
structure Above (row next : List Char) : Prop where
  suite : Opens row → ¬ Blank next ∧ indentation next = indentation row + 4
  plain : ¬ Opens row → ¬ Blank row → Blank next ∨ indentation next ≤ indentation row
  blank : Blank row → Blank next ∨ indentation next = 0

/-- Behind these rows a block with this indentation is still open: one of them belongs to it, and none
since then stands further out. -/
def Encloses (column : Nat) (above : List (List Char)) : Prop :=
  ∃ outer member inner, above = outer ++ member :: inner ∧ ¬ Blank member ∧
    indentation member = column ∧ ∀ row ∈ inner, ¬ Blank row → column ≤ indentation row

end Row

/-- The indentation of the rows makes them a sequence of nested blocks, none of which is empty. -/
structure WellIndented (rows : List (List Char)) : Prop where
  adjacent : rows.IsChain Row.Above
  filled : ∀ row ∈ rows.getLast?, ¬ Row.Opens row
  returns : ∀ {above row below last}, rows = above ++ row :: below → ¬ Row.Blank row →
    (above.filter fun row => ¬ Row.Blank row).getLast? = some last →
    Row.indentation row < Row.indentation last → Row.Encloses (Row.indentation row) above

/-! ### Blocks of rows -/

/-- Rows that form a block with this indentation; blank rows stand at the margin only. -/
inductive Row.Block : Nat → List (List Char) → Prop
  | nil {column} : Row.Block column []
  | row {column row rest} : Row.indentation row = column → ¬ Row.Blank row → ¬ Row.Opens row →
      Row.Block column rest → Row.Block column (row :: rest)
  | suite {column row body rest} : Row.indentation row = column → Row.Opens row →
      Row.Block (column + 4) body → body ≠ [] → Row.Block column rest →
      Row.Block column (row :: (body ++ rest))
  | blank {rest} : Row.Block 0 rest → Row.Block 0 ([] :: rest)

theorem Row.not_blank_of_opens {row : List Char} (opens : Opens row) : ¬ Blank row := by
  intro blank
  have colon : ':' = ' ' := blank ':' (List.mem_of_getLast? opens)
  exact absurd colon (by decide)

theorem Row.not_opens_nil : ¬ Opens [] := by decide

namespace Row.Block

variable {column : Nat} {rows : List (List Char)}

theorem append {later : List (List Char)} (h : Row.Block column rows) (h' : Row.Block column later) :
    Row.Block column (rows ++ later) := by
  induction h with
  | nil => exact h'
  | row here shown closed _ ih => exact .row here shown closed (ih h')
  | suite here opens body some _ _ ih =>
      rw [List.cons_append, List.append_assoc]
      exact .suite here opens body some (ih h')
  | blank _ ih => exact .blank (ih h')

theorem deep (h : Row.Block column rows) : ∀ row ∈ rows, column ≤ Row.indentation row := by
  induction h with
  | nil => exact List.forall_mem_nil _
  | row here _ _ _ ih => exact List.forall_mem_cons.mpr ⟨Nat.le_of_eq here.symm, ih⟩
  | suite here _ _ _ _ ihBody ihRest =>
      refine List.forall_mem_cons.mpr ⟨Nat.le_of_eq here.symm, ?_⟩
      refine List.forall_mem_append.mpr ⟨?_, ihRest⟩
      intro row mem
      exact Nat.le_trans (Nat.le_add_right _ 4) (ihBody row mem)
  | blank _ _ => exact fun _ _ => Nat.zero_le _

theorem shown (h : Row.Block column rows) (inside : 0 < column) :
    ∀ row ∈ rows, ¬ Row.Blank row := by
  induction h with
  | nil => exact List.forall_mem_nil _
  | row _ shown _ _ ih => exact List.forall_mem_cons.mpr ⟨shown, ih inside⟩
  | suite _ opens _ _ _ ihBody ihRest =>
      exact List.forall_mem_cons.mpr ⟨Row.not_blank_of_opens opens,
        List.forall_mem_append.mpr ⟨ihBody (Nat.add_pos_right _ (by decide)), ihRest inside⟩⟩
  | blank _ _ => exact absurd inside (Nat.lt_irrefl 0)

theorem head (h : Row.Block column rows) : ∀ row ∈ rows.head?, Row.indentation row = column := by
  cases h with
  | nil => exact fun _ mem => absurd mem (by simp)
  | row here _ _ _ =>
      rintro _ ⟨⟩
      exact here
  | suite here _ _ _ _ =>
      rintro _ ⟨⟩
      exact here
  | blank _ =>
      rintro _ ⟨⟩
      rfl

theorem last (h : Row.Block column rows) : ∀ row ∈ rows.getLast?, ¬ Row.Opens row := by
  induction h with
  | nil => exact fun _ mem => absurd mem (by simp)
  | @row _ first rest _ _ closed _ ih =>
      rw [List.getLast?_cons]
      cases behind : rest.getLast? with
      | none =>
          rintro _ ⟨⟩
          exact closed
      | some final =>
          rintro _ ⟨⟩
          exact ih final behind
  | @suite _ first body rest _ _ _ some _ ihBody ihRest =>
      rw [List.getLast?_cons, List.getLast?_append]
      cases behind : rest.getLast? with
      | none =>
          rw [Option.none_or, List.getLast?_eq_some_getLast some]
          rintro _ ⟨⟩
          exact ihBody _ (List.getLast?_eq_some_getLast some)
      | some final =>
          rintro _ ⟨⟩
          exact ihRest final behind
  | @blank rest _ ih =>
      rw [List.getLast?_cons]
      cases behind : rest.getLast? with
      | none =>
          rintro _ ⟨⟩
          exact Row.not_opens_nil
      | some final =>
          rintro _ ⟨⟩
          exact ih final behind

/-- The rows of a block follow one another as they may. -/
theorem adjacent (h : Row.Block column rows) : rows.IsChain Row.Above := by
  induction h with
  | nil => exact .nil
  | @row column first rest here shown closed block ih =>
      refine List.isChain_cons.mpr ⟨?_, ih⟩
      intro next follows
      have same := block.head next follows
      exact ⟨fun opens => absurd opens closed, fun _ _ => .inr (by omega),
        fun blank => absurd blank shown⟩
  | @suite column first body rest here opens block some others ihBody ihRest =>
      have shown := block.shown (Nat.add_pos_right column (by decide))
      refine List.isChain_cons.mpr ⟨?_, List.isChain_append.mpr ⟨ihBody, ihRest, ?_⟩⟩
      · intro next follows
        rw [List.head?_append_of_ne_nil _ some] at follows
        have deeper := block.head next follows
        exact ⟨fun _ => ⟨shown next (List.mem_of_mem_head? follows), by omega⟩,
          fun closed => absurd opens closed, fun blank => absurd blank (Row.not_blank_of_opens opens)⟩
      · intro final ends next follows
        have inside := List.mem_of_mem_getLast? ends
        have deeper := block.deep final inside
        have same := others.head next follows
        exact ⟨fun opens => absurd opens (block.last final ends), fun _ _ => .inr (by omega),
          fun blank => absurd blank (shown final inside)⟩
  | @blank rest block ih =>
      refine List.isChain_cons.mpr ⟨?_, ih⟩
      intro next follows
      have same := block.head next follows
      exact ⟨fun opens => absurd opens Row.not_opens_nil,
        fun _ shown => absurd (List.forall_mem_nil _) shown, fun _ => .inr same⟩

end Row.Block

namespace Row

/-- Where a row of a block stands: right under the row that opens its own block, or in a block that is
still open, or at the start of the whole. -/
inductive Placed (column : Nat) (above : List (List Char)) (row : List Char) : Prop
  | under {opener : List Char} : above.getLast? = some opener → Opens opener →
      Placed column above row
  | enclosed : Encloses (indentation row) above → Placed column above row
  | first : indentation row = column → (∀ r ∈ above, Blank r) → Placed column above row

variable {column : Nat} {front above : List (List Char)} {row : List Char}

theorem Encloses.append_left (h : Encloses column above) (front : List (List Char)) :
    Encloses column (front ++ above) := by
  obtain ⟨outer, member, inner, rfl, shown, here, deep⟩ := h
  exact ⟨front ++ outer, member, inner, by rw [List.append_assoc], shown, here, deep⟩

theorem Encloses.append_blank (h : Encloses column front) (blank : ∀ r ∈ above, Blank r) :
    Encloses column (front ++ above) := by
  obtain ⟨outer, member, inner, rfl, shown, here, deep⟩ := h
  refine ⟨outer, member, inner ++ above, ?_, shown, here, ?_⟩
  · rw [List.append_assoc, List.cons_append]
  · exact List.forall_mem_append.mpr ⟨deep, fun r mem shown => absurd (blank r mem) shown⟩

theorem getLast?_append_of_some {opener : List Char} (h : above.getLast? = some opener)
    (front : List (List Char)) : (front ++ above).getLast? = some opener := by
  rw [List.getLast?_append, h, Option.some_or]

/-- Further rows of the same block may stand in front. -/
theorem Placed.behind (h : Placed column above row) (member : Encloses column front) :
    Placed column (front ++ above) row := by
  cases h with
  | under last opens => exact .under (getLast?_append_of_some last front) opens
  | enclosed block => exact .enclosed (block.append_left front)
  | first here blank =>
      rw [← here] at member
      exact .enclosed (member.append_blank blank)

end Row

namespace Row.Block

variable {column : Nat} {rows above below : List (List Char)} {row : List Char}

theorem placed (h : Row.Block column rows) (split : rows = above ++ row :: below)
    (shown : ¬ Row.Blank row) : Row.Placed column above row := by
  induction h generalizing above below with
  | nil => exact absurd split (by simp)
  | @row column top rest here visible closed block ih =>
      cases above with
      | nil =>
          obtain ⟨rfl, -⟩ := List.cons.inj split
          exact .first here (List.forall_mem_nil _)
      | cons top' above =>
          obtain ⟨rfl, tail⟩ := List.cons.inj split
          exact (ih tail).behind ⟨[], top, [], rfl, visible, here, List.forall_mem_nil _⟩
  | @suite column top body rest here opens block some others ihBody ihRest =>
      cases above with
      | nil =>
          obtain ⟨rfl, -⟩ := List.cons.inj split
          exact .first here (List.forall_mem_nil _)
      | cons top' above =>
          obtain ⟨rfl, tail⟩ := List.cons.inj split
          have visible := Row.not_blank_of_opens opens
          have member : Row.Encloses column (top :: body) := by
            refine ⟨[], top, body, rfl, visible, here, ?_⟩
            intro r mem _
            exact Nat.le_trans (Nat.le_add_right _ 4) (block.deep r mem)
          -- the row stands in the rest, or else in the body
          obtain ⟨between, rfl, later⟩ | ⟨inside, inner, later⟩ := List.append_eq_append_iff.mp tail
          · exact (ihRest later).behind member
          · cases inside with
            | nil =>
                rw [List.append_nil] at inner
                subst inner
                have top := ihRest (show rest = [] ++ row :: below from later.symm)
                have placed := top.behind member
                rwa [List.append_nil] at placed
            | cons row' inside =>
                obtain ⟨rfl, -⟩ := List.cons.inj later
                cases ihBody inner with
                | under last opens => exact .under (Row.getLast?_append_of_some last [top]) opens
                | enclosed outer => exact .enclosed (outer.append_left [top])
                | first _ blank =>
                    have clear : above = [] := by
                      apply List.eq_nil_iff_forall_not_mem.mpr
                      intro r mem
                      apply block.shown (Nat.add_pos_right _ (by decide)) r _ (blank r mem)
                      rw [inner]
                      exact List.mem_append_left _ mem
                    subst clear
                    exact .under rfl opens
  | @blank rest block ih =>
      cases above with
      | nil =>
          obtain ⟨rfl, -⟩ := List.cons.inj split
          exact absurd (List.forall_mem_nil _) shown
      | cons top above =>
          obtain ⟨rfl, tail⟩ := List.cons.inj split
          cases ih tail with
          | under last opens => exact .under (Row.getLast?_append_of_some last [[]]) opens
          | enclosed outer => exact .enclosed (outer.append_left [[]])
          | first here blank =>
              exact .first here (List.forall_mem_cons.mpr ⟨List.forall_mem_nil _, blank⟩)

theorem wellIndented (h : Row.Block 0 rows) : WellIndented rows := by
  refine ⟨h.adjacent, h.last, ?_⟩
  intro above row below last split shown ends shallower
  cases h.placed split shown with
  | enclosed block => exact block
  | first here blank =>
      obtain ⟨mem, visible⟩ := List.mem_filter.mp (List.mem_of_getLast? ends)
      exact absurd (blank last mem) (of_decide_eq_true visible)
  | @under opener final opens =>
      -- the row right under an opening row stands deeper than it, and that is no way back
      obtain ⟨before, rfl⟩ := List.getLast?_eq_some_iff.mp final
      have visible : (¬ Row.Blank opener) = True := eq_true (Row.not_blank_of_opens opens)
      simp only [List.filter_append, List.filter_cons, visible, decide_true, if_true, List.filter_nil,
        List.getLast?_concat, Option.some.injEq] at ends
      have adjacent := h.adjacent
      rw [split, List.append_assoc, List.singleton_append, List.isChain_append_cons_cons] at adjacent
      have deeper := (adjacent.2.1.suite opens).2
      rw [← ends] at shallower
      omega

end Row.Block

/-! ### Lines as rows -/

namespace Line

def row (l : Line) : List Char := l.render.toList

/-- The text of the line starts where its indentation ends. -/
def Starts (text : String) : Prop := text.toList.head? ≠ none ∧ text.toList.head? ≠ some ' '

/-- A line under which nothing has to stand. -/
def Stands (text : String) : Prop := Starts text ∧ ':' ∉ text.toList

/-- A line under which a block has to stand. -/
def Heads (text : String) : Prop := Starts text ∧ text.toList.getLast? = some ':'

instance (text : String) : Decidable (Starts text) := inferInstanceAs (Decidable (_ ∧ _))

instance (text : String) : Decidable (Stands text) := inferInstanceAs (Decidable (_ ∧ _))

instance (text : String) : Decidable (Heads text) := inferInstanceAs (Decidable (_ ∧ _))

theorem indentation_row (level : Nat) {text : String} (starts : Starts text) :
    Row.indentation (row ⟨level, text⟩) = 4 * level ∧ ¬ Row.Blank (row ⟨level, text⟩) := by
  obtain ⟨filled, other⟩ := starts
  rw [row, toList_render]
  cases here : text.toList with
  | nil =>
      rw [here] at filled
      exact absurd rfl filled
  | cons c cs =>
      rw [here, List.head?_cons, ne_eq, Option.some.injEq] at other
      constructor
      · rw [Row.indentation, List.takeWhile_append_of_pos (by simp),
          List.takeWhile_cons_of_neg (by simpa using other), List.append_nil, List.length_replicate]
      · intro blank
        exact other (blank c (List.mem_append_right _ List.mem_cons_self))

theorem getLast?_row {level : Nat} {text : String} (starts : Starts text) :
    (row ⟨level, text⟩).getLast? = text.toList.getLast? := by
  rw [row, toList_render, List.getLast?_append]
  cases here : text.toList with
  | nil => exact absurd (congrArg List.head? here) starts.1
  | cons c cs => rw [List.getLast?_cons, Option.some_or]

/-- A number in a line is no colon. -/
theorem Stands.around {a : Around} (stands : Stands a.before) (back : ':' ∉ a.behind.toList)
    (n : Nat) : Stands (a.text n) := by
  obtain ⟨⟨filled, other⟩, front⟩ := stands
  refine ⟨?_, Around.not_mem_text rfl front back n⟩
  obtain ⟨c, first⟩ := Option.ne_none_iff_exists'.mp filled
  rw [first] at other
  rw [Starts, Around.head_text first]
  exact ⟨Option.some_ne_none c, other⟩

end Line

namespace Row.Block

variable {level : Nat} {text : String} {lines rest : List Line}

theorem stands (h : Line.Stands text) (block : Row.Block (4 * level) (rest.map Line.row)) :
    Row.Block (4 * level) ((⟨level, text⟩ :: rest).map Line.row) := by
  obtain ⟨here, shown⟩ := Line.indentation_row level h.1
  refine .row here shown ?_ block
  intro opens
  rw [Row.Opens, Line.getLast?_row h.1] at opens
  exact h.2 (List.mem_of_getLast? opens)

theorem heads (h : Line.Heads text) (body : Row.Block (4 * (level + 1)) (lines.map Line.row))
    (filled : lines ≠ []) (block : Row.Block (4 * level) (rest.map Line.row)) :
    Row.Block (4 * level) ((⟨level, text⟩ :: (lines ++ rest)).map Line.row) := by
  obtain ⟨here, -⟩ := Line.indentation_row level h.1
  rw [List.map_cons, List.map_append]
  refine .suite here ?_ body (mt List.map_eq_nil_iff.mp filled) block
  rw [Row.Opens, Line.getLast?_row h.1]
  exact h.2

theorem headed (h : Line.Heads text) (body : Row.Block (4 * (level + 1)) (lines.map Line.row))
    (filled : lines ≠ []) : Row.Block (4 * level) ((⟨level, text⟩ :: lines).map Line.row) := by
  have whole : Row.Block (4 * level) ((⟨level, text⟩ :: (lines ++ [])).map Line.row) :=
    heads h body filled .nil
  rwa [List.append_nil] at whole

/-- A test with a single line under it. -/
theorem check {refusal : String} (asks : Line.Heads text) (refuses : Line.Stands refusal)
    (block : Row.Block (4 * level) (rest.map Line.row)) :
    Row.Block (4 * level) ((⟨level, text⟩ :: ⟨level + 1, refusal⟩ :: rest).map Line.row) :=
  @heads level text [⟨level + 1, refusal⟩] rest asks (stands refuses .nil) (List.cons_ne_nil _ _) block

/-- A function at the margin, two blank rows before it. -/
theorem function (h : Line.Heads text) (body : Row.Block (4 * 1) (lines.map Line.row))
    (filled : lines ≠ []) :
    Row.Block 0 ((blankLine :: blankLine :: ⟨0, text⟩ :: lines).map Line.row) :=
  .blank (.blank (headed h body filled))

end Row.Block

namespace Code

theorem block_blockOf {level : Nat} {lines : List Line}
    (h : Row.Block (4 * level) (lines.map Line.row)) :
    Row.Block (4 * level) ((blockOf level lines).map Line.row) := by
  cases lines with
  | nil => exact .stands (by decide) .nil
  | cons first rest => exact h

theorem block_loop {body : Code} {level : Nat} {rest : List Line}
    (h : Row.Block (4 * (level + 1)) ((body.lines (level + 1)).map Line.row))
    (later : Row.Block (4 * level) (rest.map Line.row)) :
    Row.Block (4 * level) ((⟨level, Phrase.loop⟩ ::
      (blockOf (level + 1) (body.lines (level + 1)) ++ rest)).map Line.row) :=
  .heads (by decide) (block_blockOf h) (blockOf_ne_nil _ _) later

/-- The lines of statements form a block, also where most of the statements have no line. -/
theorem block_lines (code : Code) (level : Nat) :
    Row.Block (4 * level) ((code.lines level).map Line.row) := by
  induction code generalizing level with
  | done => exact .nil
  | forward cells rest ih =>
      have moves : Line.Stands (Phrase.forward.text cells) :=
        .around (by decide) (by decide) cells
      exact .stands moves (.check (by decide) (by decide) (ih level))
  | back cells rest ih =>
      have moves : Line.Stands (Phrase.back.text cells) := .around (by decide) (by decide) cells
      exact .stands moves (.check (by decide) (by decide) (ih level))
  | add delta rest ih =>
      have adds : Line.Stands (Phrase.add.text delta.toNat) :=
        .around (by decide) (by decide) delta.toNat
      exact .stands adds (ih level)
  | write rest ih => exact .stands (by decide) (ih level)
  | read exit rest ih =>
      have leaves : Line.Stands exit.text := by
        cases exit with
        | leave => decide
        | signal => decide
      exact .stands (by decide) (.check (by decide) leaves (.stands (by decide) (ih level)))
  | call number rest ih =>
      have calls : Line.Stands (Phrase.call.text number) := .around (by decide) (by decide) number
      exact .stands calls (ih level)
  | loop body rest ihBody ihRest => exact block_loop (ihBody (level + 1)) (ihRest level)

end Code

/-! ### Whole texts -/

theorem block_prelude : Row.Block 0 (preludeLines.map Line.row) := by
  have body : Row.Block (4 * 2) ((preludeLines.drop 5).map Line.row) :=
    .stands (by decide) (.stands (by decide) .nil)
  have method : Row.Block (4 * 1) ((preludeLines.drop 4).map Line.row) :=
    .headed (by decide) body (List.cons_ne_nil _ _)
  have signal : Row.Block (4 * 0) ((preludeLines.drop 3).map Line.row) :=
    .headed (by decide) method (List.cons_ne_nil _ _)
  have whole : Row.Block (4 * 0) (preludeLines.map Line.row) :=
    .stands (by decide) (.blank (.blank signal))
  exact whole

theorem Helper.block_definition (h : Helper) : Row.Block 0 (h.definition.lines.map Line.row) := by
  have header : Line.Heads h.definition.header.text := by
    refine ⟨?_, ?_⟩
    · rw [Definition.header, Line.Starts, Around.head_text (c := 'd') (by decide)]
      decide
    · rw [Definition.header, Around.text, String.toList_append, List.getLast?_append]
      rfl
  have body : Row.Block (4 * 1) (h.definition.body.map Line.row) :=
    Code.block_loop (h.body.block_lines 2) (.stands (by decide) .nil)
  exact .function header body (List.cons_ne_nil _ _)

namespace Routine

theorem block_bodyLines (r : Routine) {rest : List Line} (h : Row.Block (4 * 1) (rest.map Line.row)) :
    Row.Block (4 * 1) ((r.bodyLines ++ rest).map Line.row) := by
  rw [bodyLines]
  split
  · have caught : Row.Block (4 * 1) ((⟨1, Phrase.caught⟩ :: ⟨2, Phrase.leaveCaught⟩ ::
        rest).map Line.row) := .check (by decide) (by decide) h
    rw [List.cons_append, List.append_assoc]
    exact .heads (by decide) (Code.block_blockOf (r.body.block_lines 2)) (blockOf_ne_nil _ _) caught
  · rw [List.map_append]
    exact (r.body.block_lines 1).append h

theorem block_lines (r : Routine) : Row.Block 0 (r.lines.map Line.row) := by
  have helpers : Row.Block 0
      (((r.helpers.map Helper.definition).flatMap Definition.lines).map Line.row) := by
    induction r.helpers with
    | nil => exact .nil
    | cons h others ih =>
        rw [List.map_cons, List.flatMap_cons, List.map_append]
        exact h.block_definition.append ih
  have returns : Row.Block (4 * 1) ([⟨1, Phrase.leave⟩].map Line.row) := .stands (by decide) .nil
  have main : Row.Block (4 * 1) (r.mainLines.map Line.row) := by
    rw [mainLines, List.append_assoc]
    exact .stands (by decide) (.stands (by decide) (.stands (by decide) (r.block_bodyLines returns)))
  have header : Line.Heads runHeader.text := by decide
  rw [r.lines_eq, List.map_append, List.map_append]
  exact (block_prelude.append helpers).append (.function header main (List.cons_ne_nil _ _))

theorem rowsOf_text (r : Routine) : rowsOf r.text = r.lines.map Line.row := by
  rw [rowsOf, text, Line.splitOn_join r.plain_lines, List.dropLast_concat]
  rfl

theorem toList_text (r : Routine) : r.text.toList = (rowsOf r.text).flatMap (· ++ ['\n']) := by
  rw [r.rowsOf_text, text, String.toList_join, List.flatMap_map, List.flatMap_map]
  congr 1
  funext l
  exact String.toList_append

end Routine

/-- The text of a chain's routine is correctly indented, whatever the chain, the sharing in it and the
inline depth: it consists of closed rows, and their indentation makes them nested blocks. -/
theorem routine_text_indented (l : Linked) (config : Config) :
    (l.routine config).text.toList = (rowsOf (l.routine config).text).flatMap (· ++ ['\n']) ∧
      WellIndented (rowsOf (l.routine config).text) := by
  refine ⟨(l.routine config).toList_text, ?_⟩
  rw [Routine.rowsOf_text]
  exact (l.routine config).block_lines.wellIndented

end TapeChain
