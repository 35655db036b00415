import TapeChain.Number.Integer

/-! Run configuration: which engine runs a chain, and how deep the loops of one routine may nest. The
bound on recursion is read and kept, and nothing else: it asks the host for room on its stack, and the
stack of the host is not modelled, nor its refusal of a bound of 2³¹ or more. -/
namespace TapeChain

inductive Backend where
  | compiled
  | interpreted
  deriving DecidableEq

namespace Backend

def name : Backend → String
  | .compiled => "compiled"
  | .interpreted => "interpreted"

def ofName? : String → Option Backend
  | "compiled" => some .compiled
  | "interpreted" => some .interpreted
  | _ => none

end Backend

inductive ConfigFault where
  | unknownBackend (name : String)
  | inlineDepth
  | numeral (fault : Number.IntegerFault)
  deriving DecidableEq

def ConfigFault.message : ConfigFault → String
  | .unknownBackend name =>
      s!"Unknown backend '{name}', expected one of ('compiled', 'interpreted')"
  | .inlineDepth => "inline_depth must be between 1 and 18"
  | .numeral fault => fault.message

/-- The bounds on the inline depth keep every routine below the limit of twenty nested blocks. -/
structure Config where
  backend : Backend := .compiled
  inlineDepth : Nat := 16
  maxRecursion : Int := 10000
  one_le_inlineDepth : 1 ≤ inlineDepth := by decide
  inlineDepth_le : inlineDepth ≤ 18 := by decide

namespace Config

/-- The backend is judged before the inline depth. -/
def make (backend : String) (inlineDepth maxRecursion : Int) : Except ConfigFault Config :=
  match Backend.ofName? backend with
  | none => .error (.unknownBackend backend)
  | some backend =>
    if h : 1 ≤ inlineDepth ∧ inlineDepth ≤ 18 then
      .ok { backend, inlineDepth := inlineDepth.toNat, maxRecursion
            one_le_inlineDepth := by omega, inlineDepth_le := by omega }
    else .error .inlineDepth

/-- Settings from the environment, by variable name. Both numerals are read before anything is
judged. -/
def ofEnv (lookup : String → Option String) : Except ConfigFault Config := do
  let depth ← (Number.readInteger ((lookup "BRAINFLY_INLINE_DEPTH").getD "16")).mapError .numeral
  let recursion ←
    (Number.readInteger ((lookup "BRAINFLY_MAX_RECURSION").getD "10000")).mapError .numeral
  make ((lookup "BRAINFLY_BACKEND").getD "compiled") depth recursion

end Config

end TapeChain
