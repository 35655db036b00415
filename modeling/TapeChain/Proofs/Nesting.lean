import Mathlib.Order.Bounds.Basic
import TapeChain.Artifact.Lexeme
import TapeChain.Proofs.Numbering

/-! How deep blocks nest in the text of a routine. The depth is read from the text alone: a line
stands in the block of the nearest earlier line with less indentation, and so on outwards, up to the
function it belongs to. The budget of a routine is spread over three places, the test for inline loops,
the level that the guard takes and the loop that every helper starts with; together they let blocks
nest exactly as deep as loops do in the chain, up to the inline depth. -/
namespace TapeChain

/-! ### Blocks in a text -/

namespace Line

/-- The word that a line starts with. -/
def keyword (text : String) : List Char := text.toList.takeWhile Lexeme.isNamePart

def OpensFunction (text : String) : Prop := keyword text = "def".toList

/-- The block behind the line is one of those whose nesting the host limits. -/
def OpensBlock (text : String) : Prop :=
  keyword text = "while".toList ∨ keyword text = "try".toList

instance (text : String) : Decidable (OpensFunction text) := inferInstanceAs (Decidable (_ = _))

instance (text : String) : Decidable (OpensBlock text) := inferInstanceAs (Decidable (_ ∨ _))

/-- The lines in whose blocks a line at `level` stands, innermost first. The earlier lines are given
last to first; blank lines open and close nothing. -/
def around (level : Nat) : List Line → List Line
  | [] => []
  | line :: earlier =>
    if line.text ≠ "" ∧ line.level < level then line :: around line.level earlier
    else around level earlier

/-- The number of limited blocks among lines that enclose one another, up to the first function. -/
def blocks : List Line → Nat
  | [] => 0
  | line :: outer =>
    if OpensFunction line.text then 0
    else if OpensBlock line.text then blocks outer + 1
    else blocks outer

/-- How deep blocks nest at each line, the block of the line itself included. -/
def depthsFrom (earlier : List Line) : List Line → List Nat
  | [] => []
  | line :: later =>
    blocks (line :: around line.level earlier) :: depthsFrom (line :: earlier) later

/-- How deep blocks nest at the lines of a text, each counted in its own function. -/
def depths (text : String) : List Nat := depthsFrom [] (ofText text)

/-- The line says something, and opens neither a function nor a limited block. -/
structure Simple (text : String) : Prop where
  shown : text ≠ ""
  function : ¬ OpensFunction text
  block : ¬ OpensBlock text

instance (text : String) : Decidable (Simple text) :=
  decidable_of_iff (text ≠ "" ∧ ¬ OpensFunction text ∧ ¬ OpensBlock text)
    ⟨fun ⟨shown, function, block⟩ => ⟨shown, function, block⟩,
      fun ⟨shown, function, block⟩ => ⟨shown, function, block⟩⟩

theorem keyword_append {before : String} (short : keyword before ≠ before.toList) (after : String) :
    keyword (before ++ after) = keyword before := by
  have cut : (keyword before).length ≠ before.toList.length :=
    fun same => short ((List.takeWhile_prefix _).eq_of_length same)
  unfold keyword at cut ⊢
  rw [String.toList_append, List.takeWhile_append, if_neg cut]

/-- The keyword stands in front of the number in a line. -/
theorem keyword_around {a : Around} (short : keyword a.before ≠ a.before.toList) (n : Nat) :
    keyword (a.text n) = keyword a.before := by
  rw [Around.text, String.append_assoc, keyword_append short]

theorem Simple.around {a : Around} (simple : Simple a.before)
    (short : keyword a.before ≠ a.before.toList) (n : Nat) : Simple (a.text n) := by
  refine ⟨?_, ?_, ?_⟩
  · intro empty
    rw [Around.text, String.append_assoc] at empty
    exact simple.shown (String.append_eq_empty_iff.mp empty).1
  · rw [OpensFunction, keyword_around short]
    exact simple.function
  · rw [OpensBlock, keyword_around short]
    exact simple.block

/-! ### Enclosing lines -/

section
variable {level : Nat} {line : Line}

theorem blocks_simple (simple : Simple line.text) (outer : List Line) :
    blocks (line :: outer) = blocks outer := by
  rw [blocks, if_neg simple.function, if_neg simple.block]

theorem around_zero (earlier : List Line) : around 0 earlier = [] := by
  induction earlier with
  | nil => rfl
  | cons line earlier ih => rw [around, if_neg (fun h => Nat.not_lt_zero _ h.2), ih]

/-- Lines at the same level or deeper enclose nothing. -/
theorem around_deeper {between : List Line} (deep : ∀ line ∈ between, level ≤ line.level)
    (earlier : List Line) : around level (between ++ earlier) = around level earlier := by
  induction between with
  | nil => rfl
  | cons line between ih =>
      obtain ⟨first, others⟩ := List.forall_mem_cons.mp deep
      rw [List.cons_append, around, if_neg (fun h => Nat.not_lt_of_le first h.2), ih others]

theorem around_header {text : String} (shown : text ≠ "") (earlier : List Line) :
    around (level + 1) (⟨level, text⟩ :: earlier) = ⟨level, text⟩ :: around level earlier := by
  rw [around, if_pos ⟨shown, Nat.lt_succ_self _⟩]

theorem depthsFrom_append (lines later earlier : List Line) : depthsFrom earlier (lines ++ later) =
    depthsFrom earlier lines ++ depthsFrom (lines.reverse ++ earlier) later := by
  induction lines generalizing earlier with
  | nil => rfl
  | cons line lines ih =>
      rw [List.cons_append, depthsFrom, depthsFrom, ih, List.reverse_cons, List.append_assoc]
      rfl

end

end Line

/-- Blocks nest `inner` deep in lines with these depths, and no deeper; `outer` blocks stand around
all of them. -/
structure Nests (outer inner : Nat) (depths : List Nat) : Prop where
  within : ∀ n ∈ depths, n ≤ outer + inner
  reached : 0 < inner → outer + inner ∈ depths

theorem Nests.append {outer a b : Nat} {xs ys : List Nat} (hx : Nests outer a xs)
    (hy : Nests outer b ys) : Nests outer (max a b) (xs ++ ys) := by
  refine ⟨?_, ?_⟩
  · intro n mem
    rcases List.mem_append.mp mem with mem | mem
    · have := hx.within n mem
      omega
    · have := hy.within n mem
      omega
  · intro deep
    rcases Nat.le_total a b with le | le
    · rw [Nat.max_eq_right le] at deep ⊢
      exact List.mem_append_right _ (hy.reached deep)
    · rw [Nat.max_eq_left le] at deep ⊢
      exact List.mem_append_left _ (hx.reached deep)

/-- Lines of one block, none of them outside `level`, in which further blocks nest `inner` deep. -/
structure Suite (level inner : Nat) (lines : List Line) : Prop where
  deep : ∀ line ∈ lines, level ≤ line.level
  nests : ∀ earlier, Nests (Line.blocks (Line.around level earlier)) inner
    (Line.depthsFrom earlier lines)

namespace Suite

variable {level inner a b : Nat} {text : String} {lines later : List Line}

theorem nil : Suite level 0 [] :=
  ⟨List.forall_mem_nil _, fun _ => ⟨List.forall_mem_nil _, fun deep => absurd deep (Nat.lt_irrefl 0)⟩⟩

theorem append (first : Suite level a lines) (rest : Suite level b later) :
    Suite level (max a b) (lines ++ later) := by
  refine ⟨List.forall_mem_append.mpr ⟨first.deep, rest.deep⟩, ?_⟩
  intro earlier
  have behind := rest.nests (lines.reverse ++ earlier)
  rw [Line.around_deeper fun line mem => first.deep line (List.mem_reverse.mp mem)] at behind
  rw [Line.depthsFrom_append]
  exact (first.nests earlier).append behind

/-- A line that opens no limited block, and what stands under it. -/
theorem under (simple : Line.Simple text) (body : Suite (level + 1) inner lines) :
    Suite level inner (⟨level, text⟩ :: lines) := by
  have deep : ∀ line ∈ lines, level ≤ line.level := fun line mem => Nat.le_of_succ_le (body.deep line mem)
  refine ⟨List.forall_mem_cons.mpr ⟨Nat.le_refl _, deep⟩, ?_⟩
  intro earlier
  have inside := body.nests (⟨level, text⟩ :: earlier)
  rw [Line.around_header simple.shown, Line.blocks_simple simple] at inside
  rw [Line.depthsFrom, Line.blocks_simple simple]
  refine ⟨List.forall_mem_cons.mpr ⟨Nat.le_add_right _ _, inside.within⟩, ?_⟩
  intro nested
  exact List.mem_cons_of_mem _ (inside.reached nested)

/-- A line that opens a limited block, and the block. -/
theorem block (function : ¬ Line.OpensFunction text) (opens : Line.OpensBlock text)
    (body : Suite (level + 1) inner lines) : Suite level (inner + 1) (⟨level, text⟩ :: lines) := by
  have shown : text ≠ "" := by
    rintro rfl
    exact absurd opens (by decide)
  have deep : ∀ line ∈ lines, level ≤ line.level := fun line mem => Nat.le_of_succ_le (body.deep line mem)
  refine ⟨List.forall_mem_cons.mpr ⟨Nat.le_refl _, deep⟩, ?_⟩
  intro earlier
  have opened : Line.blocks (⟨level, text⟩ :: Line.around level earlier) =
      Line.blocks (Line.around level earlier) + 1 := by
    rw [Line.blocks, if_neg function, if_pos opens]
  have inside := body.nests (⟨level, text⟩ :: earlier)
  rw [Line.around_header shown, opened] at inside
  rw [Line.depthsFrom, opened]
  refine ⟨List.forall_mem_cons.mpr ⟨by omega, ?_⟩, ?_⟩
  · intro n mem
    have := inside.within n mem
    omega
  · -- without further blocks the opening line itself stands deepest
    intro _
    rcases Nat.eq_zero_or_pos inner with rfl | nested
    · exact List.mem_cons_self
    · rw [← Nat.add_assoc, Nat.add_right_comm]
      exact List.mem_cons_of_mem _ (inside.reached nested)

theorem cons (simple : Line.Simple text) (rest : Suite level inner later) :
    Suite level inner (⟨level, text⟩ :: later) := by
  have both := (under simple nil).append rest
  rwa [Nat.zero_max] at both

theorem simple_append (rest : Suite level inner later)
    (simple : ∀ line ∈ lines, line.level = level ∧ Line.Simple line.text) :
    Suite level inner (lines ++ later) := by
  induction lines with
  | nil => exact rest
  | cons line lines ih =>
      obtain ⟨⟨rfl, first⟩, others⟩ := List.forall_mem_cons.mp simple
      exact cons first (ih others)

/-- A test with a single line under it. -/
theorem check {refusal : String} (asks : Line.Simple text) (refuses : Line.Simple refusal)
    (rest : Suite level inner later) :
    Suite level inner (⟨level, text⟩ :: ⟨level + 1, refusal⟩ :: later) := by
  have both := (under asks (cons refuses nil)).append rest
  rwa [Nat.zero_max] at both

/-- A function at the margin; no block stands around its body. -/
theorem function (opens : Line.OpensFunction text) (body : Suite 1 inner lines) (earlier : List Line) :
    Nests 0 inner (Line.depthsFrom earlier (blankLine :: blankLine :: ⟨0, text⟩ :: lines)) := by
  have shown : text ≠ "" := by
    rintro rfl
    exact absurd opens (by decide)
  have blank (earlier : List Line) :
      Line.blocks (blankLine :: Line.around blankLine.level earlier) = 0 := by
    rw [blankLine, Line.around_zero]
    decide +kernel
  have opened (outer : List Line) : Line.blocks (⟨0, text⟩ :: outer) = 0 := by
    rw [Line.blocks, if_pos opens]
  have inside := body.nests (⟨0, text⟩ :: blankLine :: blankLine :: earlier)
  rw [Line.around_header shown, opened] at inside
  simp only [Line.depthsFrom, blank, opened]
  refine ⟨?_, ?_⟩
  · simp only [List.forall_mem_cons]
    exact ⟨Nat.zero_le _, Nat.zero_le _, Nat.zero_le _, inside.within⟩
  · intro nested
    exact .tail _ (.tail _ (.tail _ (inside.reached nested)))

end Suite

/-! ### Statements -/

namespace Code

/-- How deep loops nest in statements. -/
def nesting : Code → Nat
  | .done => 0
  | .forward _ rest | .back _ rest | .add _ rest | .write rest | .read _ rest | .call _ rest =>
    rest.nesting
  | .loop body rest => max (body.nesting + 1) rest.nesting

theorem nesting_move (offset : Int) (rest : Code) : (Code.move offset rest).nesting = rest.nesting := by
  unfold Code.move
  split
  · rfl
  · split
    · rfl
    · rfl

theorem nesting_bump (delta : UInt8) (rest : Code) :
    (Code.bump delta rest).nesting = rest.nesting := by
  unfold Code.bump
  split
  · rfl
  · rfl

theorem suite_blockOf {body : Code} {level : Nat} (h : Suite level body.nesting (body.lines level)) :
    Suite level body.nesting (blockOf level (body.lines level)) := by
  have pass : Line.Simple Phrase.pass := by decide +kernel
  cases body with
  | done => exact .cons pass .nil
  | _ => exact h

theorem suite_loop {body : Code} {level : Nat}
    (h : Suite (level + 1) body.nesting (body.lines (level + 1))) :
    Suite level (body.nesting + 1)
      (⟨level, Phrase.loop⟩ :: blockOf (level + 1) (body.lines (level + 1))) :=
  .block (by decide +kernel) (by decide +kernel) (suite_blockOf h)

theorem suite_lines (code : Code) (level : Nat) : Suite level code.nesting (code.lines level) := by
  have refuses : Line.Simple Phrase.refuse := by decide +kernel
  induction code generalizing level with
  | done => exact .nil
  | forward cells rest ih =>
      have moves : Line.Simple (Phrase.forward.text cells) :=
        .around (by decide +kernel) (by decide +kernel) cells
      have asks : Line.Simple Phrase.pastEnd := by decide +kernel
      exact .cons moves (.check asks refuses (ih level))
  | back cells rest ih =>
      have moves : Line.Simple (Phrase.back.text cells) :=
        .around (by decide +kernel) (by decide +kernel) cells
      have asks : Line.Simple Phrase.beforeStart := by decide +kernel
      exact .cons moves (.check asks refuses (ih level))
  | add delta rest ih =>
      have adds : Line.Simple (Phrase.add.text delta.toNat) :=
        .around (by decide +kernel) (by decide +kernel) delta.toNat
      exact .cons adds (ih level)
  | write rest ih =>
      have writes : Line.Simple Phrase.write := by decide +kernel
      exact .cons writes (ih level)
  | read exit rest ih =>
      have reads : Line.Simple Phrase.read := by decide +kernel
      have asks : Line.Simple Phrase.dry := by decide +kernel
      have leaves : Line.Simple exit.text := by
        cases exit with
        | leave => decide +kernel
        | signal => decide +kernel
      have stores : Line.Simple Phrase.store := by decide +kernel
      exact .cons reads (.check asks leaves (.cons stores (ih level)))
  | call number rest ih =>
      have calls : Line.Simple (Phrase.call.text number) :=
        .around (by decide +kernel) (by decide +kernel) number
      exact .cons calls (ih level)
  | loop body rest ihBody ihRest => exact (suite_loop (ihBody (level + 1))).append (ihRest level)

end Code

/-! ### Functions -/

theorem Helper.nests (h : Helper) (earlier : List Line) :
    Nests 0 (h.body.nesting + 1) (Line.depthsFrom earlier h.definition.lines) := by
  have opens : Line.OpensFunction h.definition.header.text :=
    (Line.keyword_around (by decide +kernel) h.number).trans (by decide +kernel)
  have returns : Line.Simple Phrase.leave := by decide +kernel
  have body : Suite 1 (max (h.body.nesting + 1) 0) h.definition.body :=
    (Code.suite_loop (h.body.suite_lines 2)).append (.cons returns .nil)
  rw [Nat.max_zero] at body
  exact body.function opens earlier

namespace Routine

/-- How deep blocks nest in the main routine. -/
def nesting (r : Routine) : Nat := if r.guarded then r.body.nesting + 1 else r.body.nesting

theorem suite_bodyLines (r : Routine) : Suite 1 r.nesting r.bodyLines := by
  rw [nesting, bodyLines]
  split
  · have guards : ¬ Line.OpensFunction Phrase.guard ∧ Line.OpensBlock Phrase.guard := by decide +kernel
    have catches : Line.Simple Phrase.caught := by decide +kernel
    have returns : Line.Simple Phrase.leaveCaught := by decide +kernel
    have both := (Suite.block guards.1 guards.2 (Code.suite_blockOf (r.body.suite_lines 2))).append
      (.check catches returns .nil)
    rwa [Nat.max_zero] at both
  · exact r.body.suite_lines 1

theorem main_nests (r : Routine) (earlier : List Line) : Nests 0 r.nesting
    (Line.depthsFrom earlier (blankLine :: blankLine :: runHeader :: r.mainLines)) := by
  have opens : Line.OpensFunction runHeader.text := by decide +kernel
  have setup : ∀ line ∈ setupLines, line.level = 1 ∧ Line.Simple line.text := by decide +kernel
  have returns : Line.Simple Phrase.leave := by decide +kernel
  have body : Suite 1 (max r.nesting 0) r.mainLines := by
    rw [mainLines, List.append_assoc]
    exact (r.suite_bodyLines.append (.cons returns .nil)).simple_append setup
  rw [Nat.max_zero] at body
  exact body.function opens earlier

theorem helpers_within {hs : List Helper} {bound : Nat} (fits : ∀ h ∈ hs, h.body.nesting + 1 ≤ bound)
    (earlier : List Line) :
    ∀ n ∈ Line.depthsFrom earlier ((hs.map Helper.definition).flatMap Definition.lines),
      n ≤ bound := by
  induction hs generalizing earlier with
  | nil => exact List.forall_mem_nil _
  | cons h hs ih =>
      obtain ⟨first, others⟩ := List.forall_mem_cons.mp fits
      rw [List.map_cons, List.flatMap_cons, Line.depthsFrom_append]
      refine List.forall_mem_append.mpr ⟨?_, ih others _⟩
      intro n mem
      have := (h.nests earlier).within n mem
      omega

/-- Blocks nest as deep as in the main routine, if they do not nest deeper in a helper. -/
theorem isGreatest_depths (r : Routine) (fits : ∀ h ∈ r.helpers, h.body.nesting + 1 ≤ r.nesting) :
    IsGreatest {n | n ∈ Line.depths r.text} r.nesting := by
  have prelude : (∀ n ∈ Line.depthsFrom [] preludeLines, n ≤ 0) ∧
      0 ∈ Line.depthsFrom [] preludeLines := by decide +kernel
  rw [Line.depths, r.ofText_text, r.lines_eq, Line.depthsFrom_append, Line.depthsFrom_append]
  have main := r.main_nests ((preludeLines ++
    (r.helpers.map Helper.definition).flatMap Definition.lines).reverse ++ [])
  refine ⟨?_, ?_⟩
  · rcases Nat.eq_zero_or_pos r.nesting with flat | nested
    · rw [flat]
      exact List.mem_append_left _ (List.mem_append_left _ prelude.2)
    · have reached := main.reached nested
      rw [Nat.zero_add] at reached
      exact List.mem_append_right _ reached
  · intro n mem
    rcases List.mem_append.mp mem with mem | mem
    · rcases List.mem_append.mp mem with mem | mem
      · exact Nat.le_trans (prelude.1 n mem) (Nat.zero_le _)
      · exact helpers_within fits _ n mem
    · have within := main.within n mem
      rwa [Nat.zero_add] at within

end Routine

/-! ### The budget -/

namespace Linked

variable {budget : Nat} {number : Nat → Nat}

/-- Loops nest in the statements as deep as in the chain, until the budget is used up. -/
theorem nesting_numbered (l : Linked) (depth : Nat) (exit : DryExit) :
    (l.numbered budget number depth exit).nesting = min (budget - depth) l.chain.nesting := by
  induction l generalizing depth with
  | stop tag => exact (Nat.min_zero _).symm
  | move tag offset next ih => exact (Code.nesting_move _ _).trans (ih depth)
  | add tag delta next ih => exact (Code.nesting_bump _ _).trans (ih depth)
  | output tag next ih => exact ih depth
  | input tag next ih => exact ih depth
  | loop tag body next ihBody ihNext =>
      rw [numbered]
      split
      · simp only [Code.nesting, ihBody, ihNext, chain, Chain.nesting]
        omega
      · simp only [Code.nesting, ihNext, chain, Chain.nesting]
        omega

variable {l : Linked} {config : Config}

theorem nesting_helper {h : Helper} (mem : h ∈ (l.routine config).helpers) :
    h.body.nesting ≤ l.budget config - 1 := by
  obtain early | ⟨tag, body, next, -, -, same⟩ :=
    l.emit_defines numberOf_given (List.mem_reverse.mp mem)
  · cases early
  · rw [same, nesting_numbered]
    exact Nat.min_le_left _ _

/-- What the guard takes from the budget is what it adds to the main routine. -/
theorem nesting_routine (l : Linked) (config : Config) :
    (l.routine config).nesting = min config.inlineDepth l.chain.depth ∧
      ∀ h ∈ (l.routine config).helpers, h.body.nesting + 1 ≤ (l.routine config).nesting := by
  have one_le := config.one_le_inlineDepth
  have body : (l.routine config).body.nesting = min (l.budget config) l.chain.depth := by
    rw [routine_body, nesting_numbered, Nat.sub_zero, Chain.depth_eq_nesting]
  have main : (l.routine config).nesting = if l.needsHelpers config then
      (l.routine config).body.nesting + 1 else (l.routine config).body.nesting := rfl
  by_cases deep : config.inlineDepth < l.chain.depth
  · have under : l.needsHelpers config = true := decide_eq_true deep
    have short : l.budget config = config.inlineDepth - 1 := by
      rw [budget, under, if_pos rfl]
    rw [main, under, if_pos rfl, body]
    refine ⟨by omega, ?_⟩
    intro h mem
    have := nesting_helper mem
    omega
  · have plain : l.needsHelpers config = false := decide_eq_false deep
    have whole : l.budget config = config.inlineDepth := by
      rw [budget, plain]
      rfl
    rw [main, plain, if_neg Bool.false_ne_true, body]
    refine ⟨by omega, ?_⟩
    -- nothing is hoisted from a chain that fits
    have fits : 0 + l.chain.nesting ≤ l.budget config := by
      rw [← Chain.depth_eq_nesting]
      omega
    have unhoisted : (l.routine config).helpers = [] :=
      congrArg (fun hoisted : Hoisted => hoisted.defined.reverse) (l.emit_shallow fits .leave .empty)
    rw [unhoisted]
    exact List.forall_mem_nil _

end Linked

/-- In no function of a routine's text do blocks nest deeper than the inline depth, and so they stay
below the limit of twenty. The bound is exact: some function nests its blocks as deep as the chain
nests its loops, up to the inline depth. -/
theorem blocks_nest_within_budget (l : Linked) (config : Config) :
    (∀ n ∈ Line.depths (l.routine config).text, n ≤ config.inlineDepth ∧ n < 20) ∧
      IsGreatest {n | n ∈ Line.depths (l.routine config).text}
        (min config.inlineDepth l.chain.depth) := by
  obtain ⟨main, helpers⟩ := l.nesting_routine config
  have greatest := (l.routine config).isGreatest_depths helpers
  rw [main] at greatest
  refine ⟨?_, greatest⟩
  intro n mem
  have within : n ≤ config.inlineDepth := Nat.le_trans (greatest.2 mem) (Nat.min_le_left _ _)
  have limit := config.inlineDepth_le
  exact ⟨within, by omega⟩

end TapeChain
