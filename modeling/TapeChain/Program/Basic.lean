import TapeChain.Program.Token

/-! Programs as trees: a sequence of instructions, each followed by the rest of its sequence. -/
namespace TapeChain

inductive Program where
  | done
  | move (offset : Int) (rest : Program)
  | add (delta : Int) (rest : Program)
  | output (rest : Program)
  | input (rest : Program)
  | loop (body rest : Program)
  deriving DecidableEq

namespace Program

/-- The flat form: a loop is its body between brackets. -/
def tokens : Program → List Token
  | .done => []
  | .move offset rest => .move offset :: rest.tokens
  | .add delta rest => .add delta :: rest.tokens
  | .output rest => .output :: rest.tokens
  | .input rest => .input :: rest.tokens
  | .loop body rest => .opening :: (body.tokens ++ .closing :: rest.tokens)

/-- The number of instructions at the top level. -/
def size : Program → Nat
  | .done => 0
  | .move _ rest => rest.size + 1
  | .add _ rest => rest.size + 1
  | .output rest => rest.size + 1
  | .input rest => rest.size + 1
  | .loop _ rest => rest.size + 1

/-- The instructions from some point on, and the sequences that wait for them to close. -/
structure Tail where
  here : Program
  outer : List Program

/-- Puts one token in front. A bracket that is opened and never closed ends with the text. -/
def Tail.cons (t : Token) (tail : Tail) : Tail :=
  match t with
  | .move offset => { tail with here := .move offset tail.here }
  | .add delta => { tail with here := .add delta tail.here }
  | .output => { tail with here := .output tail.here }
  | .input => { tail with here := .input tail.here }
  | .closing => ⟨.done, tail.here :: tail.outer⟩
  | .opening =>
    match tail.outer with
    | [] => ⟨.loop tail.here .done, []⟩
    | next :: outer => ⟨.loop tail.here next, outer⟩

/-- The tree of a flat form whose brackets balance. -/
def ofTokens (ts : List Token) : Program := (ts.foldr Tail.cons ⟨.done, []⟩).here

end Program

end TapeChain
