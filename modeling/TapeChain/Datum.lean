import TapeChain.Number.Shortest

/-! Plain values that are not part of a chain, as they reach the library from outside, with the
texts that messages show for them. -/
namespace TapeChain

inductive Datum where
  | null
  | bool (b : Bool)
  | int (i : Int)
  | float (x : Number.Binary64)
  | text (s : String)
  | list (items : List Datum)
  | table (entries : List (String × Datum))

namespace Datum

def typeName : Datum → String
  | .null => "NoneType"
  | .bool _ => "bool"
  | .int _ => "int"
  | .float _ => "float"
  | .text _ => "str"
  | .list _ => "list"
  | .table _ => "dict"

mutual

/-- The text that shows a value in a message. -/
def shown : Datum → String
  | .null => "None"
  | .bool b => if b then "True" else "False"
  | .int i => toString i
  | .float x => x.text
  | .text s => Text.quote s
  | .list items => "[" ++ ", ".intercalate (shownItems items) ++ "]"
  | .table entries => "\x7b" ++ ", ".intercalate (shownEntries entries) ++ "\x7d"

def shownItems : List Datum → List String
  | [] => []
  | item :: items => item.shown :: shownItems items

def shownEntries : List (String × Datum) → List String
  | [] => []
  | (key, value) :: entries => (Text.quote key ++ ": " ++ value.shown) :: shownEntries entries

end

/-- The number that a value stands for in a comparison. -/
def number? : Datum → Option Rat
  | .bool b => some (if b then 1 else 0)
  | .int i => some i
  | .float x => x.value?
  | _ => none

mutual

/-- Equality of values: numbers by their value, whatever their type, tables whatever their order. -/
def same : Datum → Datum → Bool
  | .null, .null => true
  | .text s, .text t => s = t
  | .list xs, .list ys => sameItems xs ys
  | .table xs, .table ys => xs.length = ys.length && sameEntries xs ys
  | .float (.infinite a), .float (.infinite b) => a = b
  | x, y =>
    match x.number?, y.number? with
    | some a, some b => a = b
    | _, _ => false

def sameItems : List Datum → List Datum → Bool
  | [], [] => true
  | x :: xs, y :: ys => x.same y && sameItems xs ys
  | _, _ => false

/-- Every entry has an equal one under its key on the other side. -/
def sameEntries : List (String × Datum) → List (String × Datum) → Bool
  | [], _ => true
  | (key, x) :: xs, ys =>
    (match ys.lookup key with
    | some y => x.same y
    | none => false) && sameEntries xs ys

end

end Datum

end TapeChain
