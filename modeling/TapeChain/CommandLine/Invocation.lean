import TapeChain.CommandLine.Arguments
import TapeChain.Number.Decimal

/-! Commands and how they are given on a command line. -/
namespace TapeChain.CommandLine

/-- A path; absent when a separator stood in its place. -/
abbrev FileArgument := Option String

inductive Command where
  | build (file : FileArgument)
  | run (memorySize : Int) (file : FileArgument)
  /-- The length of a phase is absent when a separator stood in its place. -/
  | bench (memorySize : Int) (file : FileArgument) (seconds : Option Number.Binary64)
  | bundle (file : FileArgument) (out : Option String)
  | display (file : FileArgument) (friendly : Bool)

inductive CommandName where
  | build
  | run
  | bench
  | bundle
  | display
  deriving DecidableEq

namespace CommandName

def all : List CommandName := [.build, .run, .bench, .bundle, .display]

def text : CommandName → String
  | .build => "build"
  | .run => "run"
  | .bench => "bench"
  | .bundle => "bundle"
  | .display => "show"

def ofText? (text : String) : Option CommandName := all.find? fun n => n.text = text

end CommandName

/-! ### Grammars -/

/-- The line on the option for help, padded to the width of the longest option. -/
def helpLine (width : Nat) : String :=
  "  -h, --help" ++ String.ofList (List.replicate (width - 10) ' ') ++
    "  show this help message and exit\n"

/-- The grammar of one command. `more` describes its options besides help. -/
def commandGrammar (name : CommandName) (usage : String) (names : List String) (width : Nat)
    (more : String) (options : List LongOption) : Grammar :=
  let program := "brainfly " ++ name.text
  let usage := s!"usage: {program} [-h] {usage}\n"
  { program, usage, options
    help := usage ++ "\npositional arguments:\n" ++
      String.join (names.map fun n => s!"  {n}\n") ++ "\noptions:\n" ++ helpLine width ++ more
    positionals := names.map .one }

def CommandName.grammar : CommandName → Grammar
  | .build => commandGrammar .build "file" ["file"] 10 "" []
  | .run => commandGrammar .run "memory_size file" ["memory_size", "file"] 11 "" []
  | .bench =>
    commandGrammar .bench "[--seconds SECONDS] memory_size file" ["memory_size", "file"] 17
      "  --seconds SECONDS  Minimum time per phase\n" [⟨"--seconds", true⟩]
  | .bundle =>
    commandGrammar .bundle "[--out OUT] file" ["file"] 10 "  --out OUT   Output script path\n"
      [⟨"--out", true⟩]
  | .display =>
    commandGrammar .display "[--friendly] file" ["file"] 10
      "  --friendly  Decode operands to integers\n" [⟨"--friendly", false⟩]

def mainUsage : String :=
  "usage: brainfly [-h] [--verbose] [--interpreted]\n" ++
  "                \x7bbuild,run,bench,bundle,show\x7d ...\n"

def mainGrammar : Grammar where
  program := "brainfly"
  usage := mainUsage
  help := mainUsage ++
    "\nBrainfly ahead-of-time compiler\n\npositional arguments:\n" ++
    "  \x7bbuild,run,bench,bundle,show\x7d\n" ++
    "    build               Compile to .bft and .bfo artifacts\n" ++
    "    run                 Run a program or artifact\n" ++
    "    bench               Time repeated runs of a program or artifact\n" ++
    "    bundle              Write a standalone Python script\n" ++
    "    show                Print the canonical rendering\n" ++
    "\noptions:\n" ++ helpLine 20 ++
    "  --verbose             Log compilation details\n" ++
    "  --interpreted         Walk the chain instead of compiling it\n"
  options := [⟨"--verbose", false⟩, ⟨"--interpreted", false⟩]
  positionals := [.rest "command"]

/-! ### From events to commands -/

/-- One setting of a command. -/
inductive Setting where
  | memorySize (n : Int)
  | file (path : FileArgument)
  | seconds (x : Option Number.Binary64)
  | out (path : Option String)
  | friendly

/-- Converts the text of an argument. -/
def settingOf : Event → Except ArgumentFault (Option Setting)
  | .positional "memory_size" text =>
    let text := text.getD ""
    match Number.readInteger text with
    | .ok n => .ok (some (.memorySize n))
    | .error _ => .error (.invalid "memory_size" "int" text)
  | .positional _ path => .ok (some (.file path))
  | .value "--seconds" none => .ok (some (.seconds none))
  | .value "--seconds" (some text) =>
    match Number.readDecimal text with
    | some x => .ok (some (.seconds (some x)))
    | none => .error (.invalid "--seconds" "float" text)
  | .value _ path => .ok (some (.out path))
  | .flag _ => .ok (some .friendly)
  | _ => .ok none

/-- Why there is nothing to do: help was asked for, or the command line is faulty. -/
inductive Stop where
  | help (g : Grammar)
  | misuse (g : Grammar) (fault : ArgumentFault)

/-- Goes through a reading up to the first call for help or fault; gives the settings and the words
left over. -/
def settings (g : Grammar) : Reading → Except Stop (List Setting × List String)
  | .done extras => .ok ([], extras)
  | .fault fault => .error (.misuse g fault)
  | .next .help _ => .error (.help g)
  | .next event r => do
    let setting ← (settingOf event).mapError (.misuse g)
    let (later, extras) ← settings g r
    return (setting.toList ++ later, extras)

/-- The length of a phase unless it is given. -/
def defaultSeconds : Number.Binary64 := .finite false 10

/-- The command with the given settings; of several settings of one kind the last one counts. -/
def CommandName.command (name : CommandName) (settings : List Setting) : Command :=
  let settings := settings.reverse
  let memorySize := (settings.findSome? fun s =>
    match s with
    | .memorySize n => some n
    | _ => none).getD 0
  let file := (settings.findSome? fun s =>
    match s with
    | .file path => some path
    | _ => none).join
  let seconds := (settings.findSome? fun s =>
    match s with
    | .seconds x => some x
    | _ => none).getD (some defaultSeconds)
  let out := (settings.findSome? fun s =>
    match s with
    | .out path => some path
    | _ => none).join
  let friendly := settings.any fun s =>
    match s with
    | .friendly => true
    | _ => false
  match name with
  | .build => .build file
  | .run => .run memorySize file
  | .bench => .bench memorySize file seconds
  | .bundle => .bundle file out
  | .display => .display file friendly

/-- The command of a list of words, the first its name, and the words left over. -/
def readCommand (texts : List String) : Except Stop (Command × List String) :=
  let text := texts.headD ""
  match CommandName.ofText? text with
  | none =>
    .error (.misuse mainGrammar
      (.invalidChoice "command" text (CommandName.all.map CommandName.text)))
  | some name => do
    let (settings, extras) ← settings name.grammar (name.grammar.read (texts.drop 1))
    return (name.command settings, extras)

structure Invocation where
  verbose : Bool
  interpreted : Bool
  command : Option Command

/-- Goes through the reading of a whole command line. Words left over are a fault, those before the
command coming first. -/
def invocation (i : Invocation) (leftOver : List String) : Reading → Except Stop Invocation
  | .done extras =>
    let words := extras ++ leftOver
    if words = [] then .ok i else .error (.misuse mainGrammar (.unrecognized words))
  | .fault fault => .error (.misuse mainGrammar fault)
  | .next event r =>
    match event with
    | .help => .error (.help mainGrammar)
    | .flag name =>
      if name = "--verbose" then invocation { i with verbose := true } leftOver r
      else invocation { i with interpreted := true } leftOver r
    | .rest _ texts => do
      let (command, extras) ← readCommand texts
      invocation { i with command := some command } extras r
    | _ => invocation i leftOver r

/-- Reads a command line. -/
def Invocation.read (texts : List String) : Except Stop Invocation :=
  invocation ⟨false, false, none⟩ [] (mainGrammar.read texts)

end TapeChain.CommandLine
