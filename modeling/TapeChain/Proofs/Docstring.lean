import Mathlib.Data.List.Infix
import TapeChain.Routine.Bundle

/-! The docstring of a bundled script. Three quotes in a row close it unless a backslash stands before
one of them, and the script's name goes into it as it is. So it is closed by the quotes that are meant
to close it exactly if the name does not close it first; if the name does, then the rest of the name
is read as code. -/
namespace TapeChain

/-! ### Long strings -/

/-- A place inside a long string: right behind a backslash that takes the next character along, or
behind a number of quotes in a row. -/
inductive LongString where
  | escape
  | quotes (count : Nat)

namespace LongString

/-- The place behind one more character, unless that closes the string. -/
def step : LongString → Char → Option LongString
  | .escape, _ => some (.quotes 0)
  | .quotes count, c =>
    if c = '"' then if count < 2 then some (.quotes (count + 1)) else none
    else if c = '\\' then some .escape
    else some (.quotes 0)

/-- Divides a text behind the quotes that close the string. -/
def close? : LongString → List Char → Option (List Char × List Char)
  | _, [] => none
  | s, c :: cs =>
    match s.step c with
    | none => some ([c], cs)
    | some s => (s.close? cs).map (Prod.map (c :: ·) id)

/-- Divides a text that stands behind opening quotes. -/
def read (cs : List Char) : Option (List Char × List Char) := close? (.quotes 0) cs

/-- The character neither is a quote nor takes another one along. -/
def isPlain (c : Char) : Bool := c != '"' && c != '\\'

/-- Behind a plain character nothing is left of what stood before it. -/
theorem step_plain {c : Char} (plain : isPlain c = true) (s : LongString) :
    s.step c = some (.quotes 0) := by
  obtain ⟨quote, backslash⟩ := Bool.and_eq_true_iff.mp plain
  cases s with
  | escape => rfl
  | quotes count => rw [step, if_neg (bne_iff_ne.mp quote), if_neg (bne_iff_ne.mp backslash)]

theorem read_plain {cs : List Char} (plain : cs.all isPlain = true) (tail : List Char) :
    read (cs ++ tail) = (read tail).map (Prod.map (cs ++ ·) id) := by
  induction cs with
  | nil => exact Option.map_id'.symm
  | cons c cs ih =>
      obtain ⟨here, later⟩ := Bool.and_eq_true_iff.mp plain
      have next := ih later
      rw [read] at next ⊢
      rw [List.cons_append, close?, step_plain here]
      dsimp only
      rw [next, Option.map_map]
      rfl

/-- A string that is closed inside a text is closed there, whatever follows. -/
theorem close?_append {s : LongString} {cs : List Char} {r : List Char × List Char}
    (closed : s.close? cs = some r) (tail : List Char) :
    s.close? (cs ++ tail) = some (r.1, r.2 ++ tail) := by
  induction cs generalizing s r with
  | nil => cases closed
  | cons c cs ih =>
      rw [List.cons_append, close?]
      rw [close?] at closed
      cases next : s.step c with
      | none =>
          rw [next] at closed
          cases closed
          rfl
      | some s' =>
          rw [next] at closed
          obtain ⟨r', later, rfl⟩ := Option.map_eq_some_iff.mp closed
          dsimp only
          rw [ih later]
          rfl

/-- A text that does not close a string leads to some place inside it. -/
theorem close?_through {s : LongString} {cs : List Char} (unclosed : s.close? cs = none) :
    ∃ s' : LongString, ∀ tail, s.close? (cs ++ tail) =
      (s'.close? tail).map (Prod.map (cs ++ ·) id) := by
  induction cs generalizing s with
  | nil => exact ⟨s, fun tail => Option.map_id'.symm⟩
  | cons c cs ih =>
      rw [close?] at unclosed
      cases next : s.step c with
      | none =>
          rw [next] at unclosed
          cases unclosed
      | some s' =>
          rw [next] at unclosed
          obtain ⟨s'', through⟩ := ih (Option.map_eq_none_iff.mp unclosed)
          refine ⟨s'', fun tail => ?_⟩
          rw [List.cons_append, close?, next]
          dsimp only
          rw [through, Option.map_map]
          rfl

/-- A name in the middle of a string. If it does not close the string then a plain character behind
it makes up for all that it may have left open. -/
theorem read_name (name : List Char) {c : Char} (plain : isPlain c = true) (tail : List Char) :
    read (name ++ c :: tail) =
      match read name with
      | none => (read tail).map (Prod.map (name ++ c :: ·) id)
      | some (taken, rest) => some (taken, rest ++ c :: tail) := by
  cases named : read name with
  | none =>
      obtain ⟨s, through⟩ := close?_through named
      rw [read, through, close?, step_plain plain]
      dsimp only
      rw [Option.map_map]
      rfl
  | some r => exact close?_append named (c :: tail)

/-- The quotes in a row that a place stands behind. -/
def quotesBehind : LongString → List Char
  | .escape => []
  | .quotes count => List.replicate count '"'

/-- Only three quotes in a row close a string. -/
theorem infix_of_close? {s : LongString} {cs : List Char} {r : List Char × List Char}
    (closed : s.close? cs = some r) : List.replicate 3 '"' <:+: s.quotesBehind ++ cs := by
  induction cs generalizing s r with
  | nil => cases closed
  | cons c cs ih =>
      have skip {s' : LongString} (next : s'.quotesBehind = []) {r' : List Char × List Char}
          (later : s'.close? cs = some r') : List.replicate 3 '"' <:+: s.quotesBehind ++ c :: cs := by
        have inside := ih later
        rw [next, List.nil_append] at inside
        exact inside.trans ((List.suffix_cons c cs).trans (List.suffix_append _ _)).isInfix
      rw [close?] at closed
      cases s with
      | escape =>
          obtain ⟨r', later, -⟩ := Option.map_eq_some_iff.mp closed
          exact skip rfl later
      | quotes count =>
          have row : List.replicate (count + 1) '"' ++ cs = List.replicate count '"' ++ '"' :: cs := by
            rw [List.replicate_succ', List.append_assoc, List.singleton_append]
          rw [step] at closed
          split_ifs at closed with quote few backslash
          · obtain ⟨r', later, -⟩ := Option.map_eq_some_iff.mp closed
            rw [quote, quotesBehind, ← row]
            exact ih later
          · have enough : count + 1 = 3 + (count - 2) := by omega
            rw [quote, quotesBehind, ← row, enough, ← List.replicate_append_replicate,
              List.append_assoc]
            exact (List.prefix_append _ _).isInfix
          · obtain ⟨r', later, -⟩ := Option.map_eq_some_iff.mp closed
            exact skip rfl later
          · obtain ⟨r', later, -⟩ := Option.map_eq_some_iff.mp closed
            exact skip rfl later

end LongString

/-! ### The bundle -/

/-- The string that the second line of a text opens with three quotes, up to the end of its closing
quotes, and what stands behind it. -/
def docstring? (text : String) : Option (List Char × List Char) :=
  match text.toList.dropWhile (· ≠ '\n') with
  | '\n' :: '"' :: '"' :: '"' :: rest => LongString.read rest
  | _ => none

theorem docstring?_eq {text : String} {line rest : List Char}
    (shape : text.toList = line ++ '\n' :: '"' :: '"' :: '"' :: rest) (first : '\n' ∉ line) :
    docstring? text = LongString.read rest := by
  have passed : ∀ c ∈ line, decide (c ≠ '\n') = true := by
    intro c mem
    exact decide_eq_true fun same => first (same ▸ mem)
  rw [docstring?, shape, List.dropWhile_append_of_pos passed]
  rfl

/-- The text between the opening quotes and the script's name. -/
def usageOpening : List Char := "Standalone Brainfly program.\n\nUsage: python ".toList

/-- The text from the script's name to the quotes that are meant to close the docstring. -/
def usageClosing : List Char := " [memory_size]\n\"\"\"".toList

namespace Executable

/-- The text behind the docstring. -/
def bundleCode (x : Executable) : List Char :=
  '\n' :: ((String.join (((bundleHeader "" (x.chain.spell .canonical)).drop 5).map (· ++ "\n"))).toList ++
    (x.routine.text.toList ++ (String.join (bundleFooter.map (· ++ "\n"))).toList))

theorem import_prefix_bundleCode (x : Executable) : "\nimport sys\n".toList <+: x.bundleCode := by
  have first : ∃ later, ((bundleHeader "" (x.chain.spell .canonical)).drop 5).map (· ++ "\n") =
      "import sys\n" :: later := ⟨_, rfl⟩
  obtain ⟨later, first⟩ := first
  rw [bundleCode, first, String.join_cons, String.toList_append, List.append_assoc]
  exact ⟨_, rfl⟩

theorem toList_bundle (x : Executable) (script : String) : (x.bundle script).toList =
    "#!/usr/bin/env python3".toList ++ '\n' :: '"' :: '"' :: '"' ::
      (usageOpening ++ (script.toList ++ (usageClosing ++ x.bundleCode))) := by
  have header (text : String) : bundleHeader script text =
      ["#!/usr/bin/env python3", "\"\"\"Standalone Brainfly program.", "",
        "Usage: python " ++ script ++ " [memory_size]", "\"\"\""] ++ (bundleHeader "" text).drop 5 := rfl
  have opening : '"' :: '"' :: '"' :: usageOpening = "\"\"\"Standalone Brainfly program.".toList ++
      '\n' :: '\n' :: "Usage: python ".toList := by decide
  have closing : usageClosing = " [memory_size]".toList ++ '\n' :: "\"\"\"".toList := by decide
  have lineFeed : "\n".toList = ['\n'] := rfl
  rw [bundle, header, List.map_append, String.join_append, bundleCode, closing]
  change _ = _ ++ '\n' :: ('"' :: '"' :: '"' :: usageOpening ++ _)
  rw [opening]
  simp only [String.toList_append, List.map_cons, List.map_nil, String.join_cons, String.join_nil,
    lineFeed, String.toList_empty, List.append_assoc, List.cons_append, List.nil_append]

/-- The docstring ends inside the script's name if that closes it, and where it is meant to end
otherwise. -/
theorem docstring?_bundle (x : Executable) (script : String) : docstring? (x.bundle script) =
    match LongString.read script.toList with
    | none => some (usageOpening ++ (script.toList ++ usageClosing), x.bundleCode)
    | some (taken, rest) => some (usageOpening ++ taken, rest ++ (usageClosing ++ x.bundleCode)) := by
  have plain : usageOpening.all LongString.isPlain = true := by decide
  -- a blank stands behind the name; it ends an escape as well as a row of quotes
  have blank : LongString.isPlain ' ' = true := by decide
  have closing : usageClosing = ' ' :: "[memory_size]\n\"\"\"".toList := by decide
  have closed : LongString.read "[memory_size]\n\"\"\"".toList =
      some ("[memory_size]\n\"\"\"".toList, []) := by decide
  have ends : LongString.read ("[memory_size]\n\"\"\"".toList ++ x.bundleCode) =
      some ("[memory_size]\n\"\"\"".toList, x.bundleCode) := LongString.close?_append closed _
  rw [docstring?_eq (x.toList_bundle script) (by decide), LongString.read_plain plain, closing,
    List.cons_append, LongString.read_name _ blank, ends]
  cases LongString.read script.toList with
  | none => simp only [Option.map_some, Prod.map_apply, id_eq]
  | some r => simp only [Option.map_some, Prod.map_apply, id_eq]

theorem docstring_meant_iff (x : Executable) (script : String) :
    (docstring? (x.bundle script)).map Prod.snd = some x.bundleCode ↔
      LongString.read script.toList = none := by
  rw [docstring?_bundle]
  cases LongString.read script.toList with
  | none => exact iff_of_true rfl rfl
  | some r =>
      refine iff_of_false ?_ (Option.some_ne_none r)
      intro same
      have lengths := congrArg List.length (Option.some.inj same)
      rw [List.length_append, List.length_append] at lengths
      have present : 0 < usageClosing.length := by decide
      omega

end Executable

/-- A bundle's docstring ends at the quotes that stand just before the imports exactly if the script's
name does not close it. If the name does, which takes three quotes in a row, then the rest of the name
and of the usage line is read as code. -/
theorem docstring_ends_in_name_or_as_meant (x : Executable) (script : String) :
    "\nimport sys\n".toList <+: x.bundleCode ∧
      docstring? (x.bundle script) =
        (match LongString.read script.toList with
        | none => some (usageOpening ++ (script.toList ++ usageClosing), x.bundleCode)
        | some (taken, rest) =>
            some (usageOpening ++ taken, rest ++ (usageClosing ++ x.bundleCode))) ∧
      ((docstring? (x.bundle script)).map Prod.snd = some x.bundleCode ↔
        LongString.read script.toList = none) ∧
      (LongString.read script.toList = none ∨ List.replicate 3 '"' <:+: script.toList) := by
  refine ⟨x.import_prefix_bundleCode, x.docstring?_bundle script, x.docstring_meant_iff script, ?_⟩
  cases closed : LongString.read script.toList with
  | none => exact .inl rfl
  | some r => exact .inr (LongString.infix_of_close? closed)

/-- A name with three quotes in it: the docstring ends there, and `b.py` is read as code. -/
theorem quotes_in_name_end_docstring :
    docstring? ((Executable.mk (.fresh .stop) {}).bundle "a\"\"\"b.py") =
        some (usageOpening ++ "a\"\"\"".toList,
          "b.py".toList ++ (usageClosing ++ (Executable.mk (.fresh .stop) {}).bundleCode)) ∧
      (docstring? ((Executable.mk (.fresh .stop) {}).bundle "a\"\"\"b.py")).map Prod.snd ≠
        some (Executable.mk (.fresh .stop) {}).bundleCode := by
  have closed : LongString.read "a\"\"\"b.py".toList = some ("a\"\"\"".toList, "b.py".toList) := rfl
  constructor
  · rw [Executable.docstring?_bundle, closed]
  · rw [ne_eq, Executable.docstring_meant_iff, closed]
    exact Option.some_ne_none _

end TapeChain
