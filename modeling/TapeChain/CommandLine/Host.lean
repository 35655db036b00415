import TapeChain.Bench
import TapeChain.CommandLine.Invocation
import TapeChain.ProgramFile
import TapeChain.Routine.Bundle

/-! Carrying out commands. What a command does to its surroundings goes through a `Host`, so that it
can be run on a real machine as well as on a model of one. -/
namespace TapeChain.CommandLine

structure Host (μ : Type → Type) where
  readFile : String → μ (Except FileFault Bytes)
  writeFile : String → Bytes → μ (Except FileFault Unit)
  input : μ Bytes
  output : Bytes → μ Unit
  complain : String → μ Unit
  report : Notice → μ Unit
  clock : Clock μ

inductive Failure where
  | noPath
  | config (fault : ConfigFault)
  | load (fault : OpenFault)
  | write (fault : FileFault)
  | sizeRange
  | noRoom
  | emptyTape
  | run (fault : Fault)
  | noSamples
  | noSeconds
  | unfinished

def Failure.message : Failure → String
  | .noPath => "expected str, bytes or os.PathLike object, not list"
  | .config fault => fault.message
  | .load fault => fault.message
  | .write fault => fault.message
  | .sizeRange => "cannot fit 'int' into an index-sized integer"
  | .noRoom => ""
  | .emptyTape => EmptyTape.message ⟨⟩
  | .run fault => fault.message
  | .noSamples => Bench.NoSamples.message ⟨⟩
  | .noSeconds => "'<' not supported between instances of 'float' and 'list'"
  | .unfinished => "out of steps"

def isReportedFile : FileFault → Bool
  | .embeddedNul => false
  | _ => true

/-- Whether a failure is reported to the user; the others are not expected to happen. -/
def Failure.isReported : Failure → Bool
  | .load (.file fault) => isReportedFile fault
  | .load (.load (.artifact (.numeral _))) => false
  | .load _ => true
  | .write fault => isReportedFile fault
  | .run (.offTape _ _) => true
  | _ => false

/-- How a command ends: with an exit code, or by a failure that is not reported. -/
inductive Finish where
  | exit (code : Nat)
  | crash (failure : Failure)

/-- No tape is smaller. -/
def leastTape : Nat := 128

/-- No tape is larger. -/
def largestTape : Nat := 68719476736

/-- A blank tape of the requested size. -/
def reserve (size : Int) : Except Failure Tape :=
  let size := max size leastTape
  if !indexFits size then .error .sizeRange
  else if (largestTape : Int) < size then .error .noRoom
  else .ok (.blank size.toNat)

def ofBenchFault : BenchFault → Failure
  | .emptyTape => .emptyTape
  | .run fault => .run fault
  | .unfinished => .unfinished

section

variable {μ : Type → Type} [Monad μ]

/-- Commands act in `μ` and may fail. -/
abbrev Act (μ : Type → Type) := ExceptT Failure μ

def printLine (h : Host μ) (line : String) : Act μ Unit :=
  liftM (h.output (Text.encodeUtf8 (line ++ "\n")))

def report (h : Host μ) (notices : List Notice) : Act μ Unit :=
  notices.forM fun n => liftM (h.report n)

/-- The path and the program in the file. -/
def load (h : Host μ) (config : Config) (file : FileArgument) : Act μ (String × Executable) := do
  match file with
  | none => throw .noPath
  | some path =>
    match ← liftM (h.readFile path) with
    | .error fault => throw (.load (.file fault))
    | .ok bytes =>
      match ProgramFile.parse config path bytes with
      | .error fault => throw (.load fault)
      | .ok (x, notice) =>
        report h [notice]
        return (path, x)

def save (h : Host μ) (path : String) (bytes : Bytes) : Act μ Unit := do
  match ← liftM (h.writeFile path bytes) with
  | .error fault => throw (.write fault)
  | .ok _ => return ()

/-- Writes a program as chain text and as an object. -/
def build (h : Host μ) (config : Config) (file : FileArgument) : Act μ Nat := do
  let (path, x) ← load h config file
  let textPath := Path.stem path ++ textSuffix
  let objectPath := Path.stem path ++ objectSuffix
  save h textPath (ProgramFile.textBytes x)
  save h objectPath (ProgramFile.objectBytes x)
  report h [ProgramFile.objectNotice x objectPath]
  printLine h s!"Built {textPath} and {objectPath}"
  return 0

/-- Runs a program. Output written before a fault is kept. The exit code is the pointer modulo
256. -/
def run (h : Host μ) (fuel : Nat) (config : Config) (memorySize : Int) (file : FileArgument) :
    Act μ Nat := do
  let (_, x) ← load h config file
  let tape ← liftExcept (reserve memorySize)
  report h x.bindingNotices
  let input ← liftM h.input
  match x.run fuel ⟨0, tape, input, 0, #[]⟩ with
  | .error _ => throw .emptyTape
  | .ok none => throw .unfinished
  | .ok (some o) =>
    liftM (h.output o.machine.output)
    match o.ending with
    | .fault fault => throw (.run fault)
    | _ => return (o.machine.address % 256).toNat

/-- Trials over one phase. A phase without a length fails as soon as its length matters, that is,
after the least number of trials. -/
def phase (h : Host μ) (fuel : Nat) (entry : Entry) (seconds : Option Number.Binary64)
    (m : Machine) : Act μ (List Int × Machine) := do
  match ← liftM (Bench.measure h.clock fuel entry (seconds.getD (.infinite true)) m) with
  | .error fault => throw (ofBenchFault fault)
  | .ok result => if seconds.isNone then throw .noSeconds else return result

/-- Times a program: one phase to warm up and one that counts, without its outliers. -/
def bench (h : Host μ) (fuel : Nat) (config : Config) (memorySize : Int) (file : FileArgument)
    (seconds : Option Number.Binary64) : Act μ Nat := do
  let (_, x) ← load h config file
  let tape ← liftExcept (reserve memorySize)
  printLine h "Warming up..."
  report h x.bindingNotices
  let (_, m) ← phase h fuel x.entry seconds ⟨0, tape, #[], 0, #[]⟩
  printLine h "Benchmarking..."
  let (samples, _) ← phase h fuel x.entry seconds m
  let outliers ← liftExcept ((Bench.outliers samples).mapError fun _ => Failure.noSamples)
  let kept := Bench.trim samples outliers
  let noun := if outliers.length ≤ 1 then "outlier" else "outliers"
  printLine h s!"Removed {outliers.length} {noun}"
  let mean ← liftExcept ((Bench.mean kept).mapError fun _ => Failure.noSamples)
  printLine h s!"Mean: {(Number.Binary64.ofRat mean).text} ns"
  printLine h s!"StdDev: {(Number.Binary64.ofRat (Bench.deviation kept)).text} ns"
  return 0

/-- Writes a program as a script. An empty path counts as none. -/
def bundle (h : Host μ) (config : Config) (file : FileArgument) (out : Option String) :
    Act μ Nat := do
  let (path, x) ← load h config file
  let out := if out.getD "" = "" then Path.stem path ++ ".py" else out.getD ""
  save h out (Text.encodeUtf8 (x.bundle (Path.baseName out)))
  printLine h s!"Bundled {out}"
  return 0

def display (h : Host μ) (config : Config) (file : FileArgument) (friendly : Bool) : Act μ Nat := do
  let (_, x) ← load h config file
  printLine h (x.chain.spell (if friendly then .friendly else .canonical))
  return 0

/-- Carries out one command; gives the exit code. -/
def perform (h : Host μ) (fuel : Nat) (config : Config) : Command → Act μ Nat
  | .build file => build h config file
  | .run memorySize file => run h fuel config memorySize file
  | .bench memorySize file seconds => bench h fuel config memorySize file seconds
  | .bundle file out => bundle h config file out
  | .display file friendly => display h config file friendly

/-- The same host without reports. -/
def Host.quiet (h : Host μ) : Host μ := { h with report := fun _ => pure () }

def Stop.answer (h : Host μ) : Stop → μ Finish
  | .help g => do
    h.output (Text.encodeUtf8 g.help)
    return .exit 0
  | .misuse g fault => do
    h.complain (g.usage ++ s!"{g.program}: error: {fault.message}\n")
    return .exit 2

/-- Carries out a command under the configuration of the environment. -/
def carryOut (h : Host μ) (env : String → Option String) (fuel : Nat) (interpreted : Bool)
    (command : Command) : μ Finish := do
  match Config.ofEnv env with
  | .error fault => return .crash (.config fault)
  | .ok config =>
    let config := if interpreted then { config with backend := .interpreted } else config
    match ← (perform h fuel config command).run with
    | .ok code => return .exit code
    | .error failure =>
      if failure.isReported then
        h.complain s!"FATAL ERROR\n{failure.message}\n"
        return .exit 1
      else return .crash failure

/-- Carries out a command line. Without a command the usage is shown. -/
def execute (h : Host μ) (env : String → Option String) (fuel : Nat) (words : List String) :
    μ Finish :=
  match Invocation.read words with
  | .error stop => stop.answer h
  | .ok i =>
    match i.command with
    | none => do
      h.output (Text.encodeUtf8 mainGrammar.usage)
      return .exit 0
    | some command => carryOut (if i.verbose then h else h.quiet) env fuel i.interpreted command

end

end TapeChain.CommandLine
