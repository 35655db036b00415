import TapeChain.Artifact.Lexeme

/-! The terms of artifact text, `Name`, `Name<Term, ...>` or a signed integer, and the reader that
says at the first lexeme that does not fit what it would have accepted. -/
namespace TapeChain

mutual

inductive Term where
  | leaf (name : String)
  | node (name : String) (args : Args)
  | literal (text : String)

inductive Args where
  | nil
  | cons (t : Term) (rest : Args)

end

/-- Arguments that were collected last to first, in front of `rest`. -/
def Args.ofReversed (rest : Args) : List Term → Args
  | [] => rest
  | t :: ts => Args.ofReversed (.cons t rest) ts

/-- Where and why artifact text is not a term. The kinds are those that would have been accepted. -/
inductive SyntaxFault where
  | noLexeme (c : Char) (line column : Nat) (context : String) (expected : List LexemeKind)
      (previous : Option Lexeme)
  | unexpected (l : Lexeme) (line column : Nat) (expected : List LexemeKind)
  | misplaced (l : Lexeme) (line column : Nat) (expected : List LexemeKind)
      (previous : Option Lexeme)

def expectedLines (kinds : List LexemeKind) : String :=
  "Expected one of: \n" ++ String.join (kinds.map fun k => "\t* " ++ k.label ++ "\n")

def SyntaxFault.message : SyntaxFault → String
  | .noLexeme c line column context expected previous =>
      s!"No terminal matches '{c}' in the current parser context, at line {line} col {column}" ++
        "\n\n" ++ context ++ expectedLines expected ++
        (match previous with
        | some l => "\nPrevious tokens: " ++ l.shown ++ "\n"
        | none => "")
  | .unexpected l line column expected =>
      s!"Unexpected token {l.shown} at line {line}, column {column}.\n" ++ expectedLines expected
  | .misplaced l line column expected previous =>
      s!"Unexpected token {l.shown} at line {line}, column {column}.\n" ++
        expectedLines expected ++ "Previous tokens: [" ++
        (match previous with
        | some l => l.shown
        | none => "None") ++ "]\n"

/-! ### Positions -/

/-- Line and column of an index, both from one. Only a line feed ends a line. -/
def lineColumn (line column : Nat) : List Char → Nat → Nat × Nat
  | c :: cs, offset + 1 =>
    if c = '\n' then lineColumn (line + 1) 1 cs offset else lineColumn line (column + 1) cs offset
  | _, _ => (line, column)

/-- The width of a text once every tab is filled up to a multiple of eight columns; columns start
again after a carriage return or a line feed. -/
def expandedWidth (column width : Nat) : List Char → Nat
  | [] => width
  | c :: cs =>
    if c = '\t' then
      let fill := 8 - column % 8
      expandedWidth (column + fill) (width + fill) cs
    else if c = '\n' || c = '\r' then expandedWidth 0 (width + 1) cs
    else expandedWidth (column + 1) (width + 1) cs

/-- Up to forty characters on each side of an index, cut at line feeds, with a caret below. -/
def contextOf (cs : List Char) (offset : Nat) : String :=
  let before := ((cs.take offset).reverse.take 40).takeWhile (· ≠ '\n') |>.reverse
  let after := ((cs.drop offset).take 40).takeWhile (· ≠ '\n')
  String.ofList (before ++ after ++ '\n' :: List.replicate (expandedWidth 0 0 before) ' ' ++
    ['^', '\n'])

/-! ### The reader -/

/-- A term whose arguments are being read, the last one first. -/
structure OpenTerm where
  name : String
  args : List Term

/-- A term must start, a name was just read, or a term is complete; with the open terms around it,
innermost first. -/
inductive TermState where
  | expecting (outer : List OpenTerm)
  | named (name : String) (outer : List OpenTerm)
  | complete (t : Term) (outer : List OpenTerm)

namespace TermState

/-- The kinds among which the next lexeme is looked for, in the order that messages use. -/
def sought : TermState → List LexemeKind
  | .expecting _ => [.name, .number]
  | .named _ _ => [.comma, .less, .more]
  | .complete _ _ => [.comma, .more]

/-- The kinds that can follow a complete term. -/
def afterTerm : List OpenTerm → List LexemeKind
  | [] => [.finish]
  | _ => [.comma, .more]

/-- The kinds that would really be accepted. -/
def accepted : TermState → List LexemeKind
  | .expecting _ => [.name, .number]
  | .named _ [] => [.finish, .less]
  | .named _ _ => [.comma, .less, .more]
  | .complete _ outer => afterTerm outer

/-- The kinds shown when a lexeme that was looked for does not fit. -/
def closing : TermState → List LexemeKind
  | .expecting _ => [.name, .number]
  | .named _ outer => afterTerm outer
  | .complete _ outer => afterTerm outer

/-- Puts a complete term into the innermost open one and reads the mark after it. -/
def settle (t : Term) (kind : LexemeKind) : List OpenTerm → Option TermState
  | [] => none
  | o :: outer =>
    match kind with
    | .comma => some (.expecting (⟨o.name, t :: o.args⟩ :: outer))
    | .more => some (.complete (.node o.name (Args.ofReversed (.cons t .nil) o.args)) outer)
    | _ => none

/-- The state after a lexeme, if it fits. -/
def feed? (s : TermState) (l : Lexeme) : Option TermState :=
  match s, l.kind with
  | .expecting outer, .name => some (.named l.text outer)
  | .expecting outer, .number => some (.complete (.literal l.text) outer)
  | .named name outer, .less => some (.expecting (⟨name, []⟩ :: outer))
  | .named name outer, kind => settle (.leaf name) kind outer
  | .complete t outer, kind => settle t kind outer
  | _, _ => none

/-- The term that the text was, if it may end here. -/
def result? : TermState → Option Term
  | .named name [] => some (.leaf name)
  | .complete t [] => some t
  | _ => none

end TermState

/-- Reads on from a state; `previous` is the last lexeme read. -/
def readTermFrom (cs : List Char) (s : TermState) (previous : Option Lexeme) :
    Lexemes → Except SyntaxFault Term
  | .finished =>
    match s.result? with
    | some t => .ok t
    | none =>
      let (line, column) := lineColumn 1 1 cs ((previous.map Lexeme.offset).getD 0)
      .error (.unexpected ⟨.finish, "", cs.length⟩ line column s.closing)
  | .stuck offset =>
    let (line, column) := lineColumn 1 1 cs offset
    .error (.noLexeme (cs.getD offset ' ') line column (contextOf cs offset) s.sought previous)
  | .next l rest =>
    match s.feed? l with
    | some s => readTermFrom cs s (some l) rest
    | none =>
      let (line, column) := lineColumn 1 1 cs l.offset
      if s.sought.contains l.kind then .error (.unexpected l line column s.closing)
      else .error (.misplaced l line column s.accepted previous)

def Term.read (text : String) : Except SyntaxFault Term :=
  readTermFrom text.toList (.expecting []) none (Lexeme.scan text)

end TapeChain
