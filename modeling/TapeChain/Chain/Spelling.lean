import TapeChain.Chain.Basic

/-! The text of a chain: nested symbols, with operands spelled by their digits or, in the friendly
style, as decimal numbers. -/
namespace TapeChain

inductive Style where
  | canonical
  | friendly
  deriving DecidableEq

def Operand.spell (style : Style) (o : Operand) : String :=
  match style with
  | .canonical => "Int<" ++ ", ".intercalate (o.digits.map HexDigit.name) ++ ">"
  | .friendly => toString o.value

/-- The pieces of a chain's text, in front of `after`. -/
def Chain.pieces (style : Style) : Chain → List String → List String
  | .stop, after => "Stop" :: after
  | .loop body next, after =>
    "Loop<" :: body.pieces style (", " :: next.pieces style (">" :: after))
  | .move offset next, after =>
    "AddPointer<" :: offset.spell style :: ", " :: next.pieces style (">" :: after)
  | .add delta next, after =>
    "AddData<" :: delta.spell style :: ", " :: next.pieces style (">" :: after)
  | .output next, after => "OutputData<" :: next.pieces style (">" :: after)
  | .input next, after => "InputData<" :: next.pieces style (">" :: after)

def Chain.spell (style : Style) (c : Chain) : String := String.join (c.pieces style [])

end TapeChain
