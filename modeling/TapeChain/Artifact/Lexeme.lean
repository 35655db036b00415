/-! The lexemes of artifact text: names, signed integers and three marks, with blanks between
them. -/
namespace TapeChain

inductive LexemeKind where
  | name
  | number
  | less
  | comma
  | more
  | finish
  deriving DecidableEq

/-- The label that messages use. -/
def LexemeKind.label : LexemeKind → String
  | .name => "NAME"
  | .number => "SIGNED_INT"
  | .less => "LESSTHAN"
  | .comma => "COMMA"
  | .more => "MORETHAN"
  | .finish => "$END"

/-- A lexeme and the index of its first character. -/
structure Lexeme where
  kind : LexemeKind
  text : String
  offset : Nat
  deriving DecidableEq

/-- Messages show a lexeme by its label and its text, which never needs an escape. -/
def Lexeme.shown (l : Lexeme) : String := s!"Token('{l.kind.label}', '{l.text}')"

/-- The lexemes of a text, up to its end or to a character that starts none. -/
inductive Lexemes where
  | finished
  | stuck (offset : Nat)
  | next (l : Lexeme) (rest : Lexemes)
  deriving DecidableEq

namespace Lexeme

def isNameStart (c : Char) : Bool := c.isAlpha || c = '_'

def isNamePart (c : Char) : Bool := c.isAlphanum || c = '_'

def isSpace (c : Char) : Bool := c = ' ' || c = '\t' || c = '\x0c' || c = '\r' || c = '\n'

/-- A lexeme in the making: where it started, and its characters so far, the last first. -/
inductive Held where
  | nothing
  | name (start : Nat) (chars : List Char)
  | number (start : Nat) (chars : List Char)
  | sign (start : Nat) (c : Char)

/-- The lexeme in the making with one more character, if the character belongs to it. -/
def Held.extend? (c : Char) : Held → Option Held
  | .nothing => none
  | .name start chars => if isNamePart c then some (.name start (c :: chars)) else none
  | .number start chars => if c.isDigit then some (.number start (c :: chars)) else none
  | .sign start s => if c.isDigit then some (.number start [c, s]) else none

/-- Closes the lexeme in the making in front of `rest`; a sign alone is no lexeme. -/
def Held.close (rest : Lexemes) : Held → Lexemes
  | .nothing => rest
  | .name start chars => .next ⟨.name, String.ofList chars.reverse, start⟩ rest
  | .number start chars => .next ⟨.number, String.ofList chars.reverse, start⟩ rest
  | .sign start _ => .stuck start

/-- What a character begins. -/
inductive Begins where
  | held (h : Held)
  | mark (kind : LexemeKind)
  | space
  | nothing

def begins (offset : Nat) (c : Char) : Begins :=
  if isNameStart c then .held (.name offset [c])
  else if c.isDigit then .held (.number offset [c])
  else if c = '+' || c = '-' then .held (.sign offset c)
  else if c = '<' then .mark .less
  else if c = ',' then .mark .comma
  else if c = '>' then .mark .more
  else if isSpace c then .space
  else .nothing

def scanFrom (held : Held) (offset : Nat) : List Char → Lexemes
  | [] => held.close .finished
  | c :: cs =>
    match held.extend? c with
    | some held => scanFrom held (offset + 1) cs
    | none =>
      held.close <|
        match begins offset c with
        | .held h => scanFrom h (offset + 1) cs
        | .mark kind => .next ⟨kind, String.singleton c, offset⟩ (scanFrom .nothing (offset + 1) cs)
        | .space => scanFrom .nothing (offset + 1) cs
        | .nothing => .stuck offset

def scan (text : String) : Lexemes := scanFrom .nothing 0 text.toList

end Lexeme

end TapeChain
