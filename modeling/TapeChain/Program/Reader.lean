import TapeChain.Program.Basic

/-! Reading program text, in one scan. Eight characters are commands and every other character is a
comment. A run of steps on one axis makes one instruction, and a comment ends it. Text is a program
exactly when its brackets balance; otherwise the first closing bracket without a partner is reported,
or, when there is none, the last opening one. -/
namespace TapeChain

/-- A bracket without a partner, by its index in the text. -/
inductive Mismatch where
  | unopened (index : Nat)
  | unclosed (index : Nat)
  deriving DecidableEq

/-- Offsets are counted from one. -/
def Mismatch.message : Mismatch → String
  | .unopened index => s!"Mismatched ']' at offset {index + 1}: no matching '['."
  | .unclosed index => s!"Mismatched '[' at offset {index + 1}: missing ']'."

namespace Program

/-- An instruction of a sequence that is still being read. -/
inductive Item where
  | steps (a : Axis) (total : Int)
  | output
  | input
  | loop (body : Program)

def Item.before : Item → Program → Program
  | .steps .pointer total, rest => .move total rest
  | .steps .data total, rest => .add total rest
  | .output, rest => .output rest
  | .input, rest => .input rest
  | .loop body, rest => .loop body rest

/-- Puts instructions, the last one first, in front of the rest of their sequence. -/
def prepend (items : List Item) (rest : Program) : Program :=
  items.foldl (fun rest item => item.before rest) rest

/-- The scan in the middle of a text: the run of steps that reaches up to here, if one does, the
instructions of the innermost sequence, the last one first, and the sequences around it, each behind
the index of the bracket that is open in it. -/
structure Scan where
  run : Option (Axis × Int)
  here : List Item
  outer : List (Nat × List Item)

namespace Scan

/-- The run of steps is over. -/
def settle : Scan → Scan
  | ⟨none, here, outer⟩ => ⟨none, here, outer⟩
  | ⟨some (a, total), here, outer⟩ => ⟨none, .steps a total :: here, outer⟩

/-- One more step, on the axis of the run or on another one. -/
def grow (a : Axis) (n : Int) : Scan → Scan
  | ⟨none, here, outer⟩ => ⟨some (a, n), here, outer⟩
  | ⟨some (b, total), here, outer⟩ =>
    if b = a then ⟨some (a, total + n), here, outer⟩
    else ⟨some (a, n), .steps b total :: here, outer⟩

/-- A character that is no step. -/
def enter (index : Nat) (c : Char) (s : Scan) : Except Mismatch Scan :=
  if c = '.' then .ok { s with here := .output :: s.here }
  else if c = ',' then .ok { s with here := .input :: s.here }
  else if c = '[' then .ok { s with here := [], outer := (index, s.here) :: s.outer }
  else if c = ']' then
    match s.outer with
    | [] => .error (.unopened index)
    | (_, before) :: outer =>
      .ok { s with here := .loop (prepend s.here .done) :: before, outer }
  else .ok s

def next (index : Nat) (c : Char) (s : Scan) : Except Mismatch Scan :=
  match Axis.ofChar? c with
  | some a => .ok (s.grow a (a.step c))
  | none => s.settle.enter index c

/-- At the end of the text. -/
def finish (s : Scan) : Except Mismatch Program :=
  match s.outer with
  | [] => .ok (prepend s.settle.here .done)
  | (opened, _) :: _ => .error (.unclosed opened)

end Scan

def readFrom (s : Scan) (index : Nat) : List Char → Except Mismatch Program
  | [] => s.finish
  | c :: cs =>
    match s.next index c with
    | .ok s => readFrom s (index + 1) cs
    | .error m => .error m

def read (text : String) : Except Mismatch Program := readFrom ⟨none, [], []⟩ 0 text.toList

end Program

end TapeChain
