import TapeChain.Artifact.Build
import TapeChain.Chain.Linked
import TapeChain.Digest
import TapeChain.Machine.Walk
import TapeChain.Program.Reader
import TapeChain.Routine.Emit
import TapeChain.Routine.Text

/-! Executables: a chain and the configuration it runs under. Lowering, emitting and running go as deep
as a chain nests. No room on the stack of the host is asked for before a program is compiled or bound,
and that the host can run out of it is left out. -/
namespace TapeChain

structure Executable where
  code : Linked
  config : Config

inductive LoadFault where
  | mismatch (m : Mismatch)
  | artifact (fault : ArtifactFault)
  | illegal (shown : String)
  | notANode (typeName : String)

def LoadFault.message : LoadFault → String
  | .mismatch m => m.message
  | .artifact fault => fault.message
  | .illegal shown => "Illegal instruction: " ++ shown
  | .notANode typeName => "Executable needs a chain node, got " ++ typeName

/-- A way into a program: walk its chain, or call the routine made from it. -/
inductive Entry where
  | walk (c : Chain)
  | call (r : Routine)

/-- Runs from the machine's pointer on. -/
def Entry.start (fuel : Nat) : Entry → Machine → Option Outcome
  | .walk c, m => c.walk fuel m
  | .call r, m => r.run fuel m

/-- The refusal to run on a tape without cells. -/
structure EmptyTape where
  deriving DecidableEq

def EmptyTape.message (_ : EmptyTape) : String := "Tape must hold at least one cell"

/-- Runs from the start of the tape; a tape without cells is refused. -/
def Entry.run (fuel : Nat) (e : Entry) (m : Machine) : Except EmptyTape (Option Outcome) :=
  if m.tape.size = 0 then .error ⟨⟩ else .ok (e.start fuel { m with address := 0 })

/-- What the library reports about its work. -/
inductive Notice where
  | compiled (characters instructions nodes : Nat)
  | reconstructed (head : String) (characters : Nat)
  | specialized (digest : String) (size : Nat)
  | bound (backend : Backend)
  | wrote (path : String) (packed unpacked : Nat)

def Notice.message : Notice → String
  | .compiled characters instructions nodes =>
      s!"Compiled {characters} characters into {instructions} top-level instructions, " ++
        s!"{nodes} chain nodes"
  | .reconstructed head characters => s!"Reconstructed {head} from {characters} characters"
  | .specialized digest size => s!"Specialized routine {digest} ({size} bytes of source)"
  | .bound backend => s!"Bound {backend.name} entry point"
  | .wrote path packed unpacked => s!"Wrote {path}: {packed} bytes ({unpacked} uncompressed)"

/-- One entry of a hand-written flat program: a token, or something that is no instruction. -/
inductive Instruction where
  | token (t : Token)
  | foreign (d : Datum)

/-- The tokens, unless some entry is no instruction; of several such entries the last one counts,
since lowering goes from the end to the start. -/
def Instruction.tokens : List Instruction → Except Datum (List Token)
  | [] => .ok []
  | .token t :: rest => (Instruction.tokens rest).map (t :: ·)
  | .foreign d :: rest =>
    match Instruction.tokens rest with
    | .ok _ => .error d
    | .error later => .error later

/-- What an executable is made from. -/
inductive Origin where
  | source (text : String)
  | text (text : String)
  | tokens (entries : List Instruction)
  | plain (d : Datum)

namespace Executable

def chain (x : Executable) : Chain := x.code.chain

/-- Compiles program text. -/
def compile (config : Config) (source : String) : Except Mismatch (Executable × Notice) := do
  let program ← Program.read source
  let code := program.lower
  return (⟨code, config⟩, .compiled source.length program.size code.chain.length)

/-- Reads artifact text. The nodes of the chain are all different. -/
def ofText (config : Config) (text : String) : Except ArtifactFault (Executable × Notice) := do
  let chain ← Chain.ofText text
  return (⟨.fresh chain, config⟩, .reconstructed chain.head text.length)

def ofOrigin (config : Config) : Origin → Except LoadFault Executable
  | .source text => ((compile config text).map Prod.fst).mapError .mismatch
  | .text text => ((ofText config text).map Prod.fst).mapError .artifact
  | .tokens entries =>
    match Instruction.tokens entries with
    | .ok tokens => .ok ⟨(Program.ofTokens tokens).lower, config⟩
    | .error d => .error (.illegal d.shown)
  | .plain (.text text) => ((ofText config text).map Prod.fst).mapError .artifact
  | .plain d => .error (.notANode d.typeName)

def shown (x : Executable) : String := s!"Executable({x.config.backend.name})"

def routine (x : Executable) : Routine := x.code.routine x.config

/-- The entry point for the configured engine. -/
def entry (x : Executable) : Entry :=
  match x.config.backend with
  | .interpreted => .walk x.chain
  | .compiled => .call x.routine

/-- Runs from the machine's pointer on. -/
def enter (fuel : Nat) (x : Executable) (m : Machine) : Option Outcome := x.entry.start fuel m

/-- Runs from the start of the tape; a tape without cells is refused. -/
def run (fuel : Nat) (x : Executable) (m : Machine) : Except EmptyTape (Option Outcome) :=
  x.entry.run fuel m

theorem run_of_cells {x : Executable} {m : Machine} (cells : 0 < m.tape.size) (fuel : Nat) :
    x.run fuel m = .ok (x.enter fuel { m with address := 0 }) :=
  if_neg (Nat.ne_of_gt cells)

/-- What is reported when an executable is first used. -/
def bindingNotices (x : Executable) : List Notice :=
  match x.config.backend with
  | .interpreted => [.bound .interpreted]
  | .compiled =>
    let text := x.routine.text
    [.specialized (String.ofList ((Digest.sha1 text.toUTF8.toList).toList.take 12)) text.length,
     .bound .compiled]

end Executable

end TapeChain
