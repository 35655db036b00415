import TapeChain.Text.Classes
import TapeChain.Text.Quoted

/-! Reading the words of a command line against a grammar of options and positional arguments. All
words are classified first; then positional arguments and options are taken in turn. -/
namespace TapeChain.CommandLine

/-- An option with a long name, dashes included. Without a value it is a flag. -/
structure LongOption where
  name : String
  takesValue : Bool
  deriving DecidableEq

inductive Positional where
  /-- One word. -/
  | one (name : String)
  /-- A word and everything after it; not required. -/
  | rest (name : String)
  deriving DecidableEq

/-- Every grammar also has the option for help, by its short and its long name. -/
structure Grammar where
  program : String
  usage : String
  help : String
  options : List LongOption
  positionals : List Positional

inductive ArgumentFault where
  | ambiguous (word : String) (options : List String)
  | ignored (option text : String)
  | noValue (option : String)
  | required (names : List String)
  | invalid (argument type text : String)
  | invalidChoice (argument text : String) (choices : List String)
  | unrecognized (words : List String)

def ArgumentFault.message : ArgumentFault → String
  | .ambiguous word options =>
      s!"ambiguous option: {word} could match " ++ ", ".intercalate options
  | .ignored option text =>
      s!"argument {option}: ignored explicit argument " ++ Text.quote text
  | .noValue option => s!"argument {option}: expected one argument"
  | .required names => "the following arguments are required: " ++ ", ".intercalate names
  | .invalid argument type text => s!"argument {argument}: invalid {type} value: " ++ Text.quote text
  | .invalidChoice argument text choices =>
      s!"argument {argument}: invalid choice: {Text.quote text} (choose from " ++
        ", ".intercalate (choices.map Text.quote) ++ ")"
  | .unrecognized words => "unrecognized arguments: " ++ " ".intercalate words

/-! ### Words -/

/-- What an option word names. -/
inductive Named where
  | shortHelp
  | longHelp
  | long (option : LongOption)
  deriving DecidableEq

/-- The names of an option as faults show them. -/
def Named.shown : Named → String
  | .shortHelp | .longHelp => "-h/--help"
  | .long option => option.name

/-- An option may have text in the same word, after an equals sign or right after a short name. -/
inductive WordKind where
  | argument
  | separator
  | option (named : Named) (attached : Option (List Char))
  | unknown
  deriving DecidableEq

structure Word where
  text : String
  kind : WordKind
  deriving DecidableEq

def Word.isOption (w : Word) : Bool :=
  match w.kind with
  | .option _ _ | .unknown => true
  | _ => false

/-- After a dash, digits, or digits around a point with at least one behind it. A line end may
follow. -/
def looksNegative (afterDash : List Char) : Bool :=
  let body := if afterDash.getLast? = some '\n' then afterDash.dropLast else afterDash
  match body.dropWhile Text.isDigit with
  | [] => !body.isEmpty
  | '.' :: fraction => !fraction.isEmpty && fraction.all Text.isDigit
  | _ => false

namespace Grammar

/-- The option with exactly this name. -/
def named? (g : Grammar) (name : String) : Option Named :=
  if name = "-h" then some .shortHelp
  else if name = "--help" then some .longHelp
  else (g.options.find? fun o => o.name = name).map .long

/-- The long names that start with the given text. -/
def abbreviated (g : Grammar) (start : List Char) : List (String × Named) :=
  (("--help", Named.longHelp) :: g.options.map fun o => (o.name, .long o)).filter fun p =>
    start.isPrefixOf p.1.toList

/-- A word that starts with a dash and names no option: a negative number and a word with a space
are arguments. -/
def classifyOther (word : String) (afterDash : List Char) : WordKind :=
  if looksNegative afterDash || word.toList.contains ' ' then .argument else .unknown

/-- What a word is, before any separator. A long option may be cut short if no other starts with
the same text. -/
def classify (g : Grammar) (word : String) : Except ArgumentFault WordKind :=
  match word.toList with
  | '-' :: second :: rest =>
    let cs := '-' :: second :: rest
    let name := cs.takeWhile (· ≠ '=')
    let attached := match cs.dropWhile (· ≠ '=') with
      | [] => none
      | _ :: text => some text
    match g.named? word with
    | some named => .ok (.option named none)
    | none =>
      match (if attached = none then none else g.named? (String.ofList name)) with
      | some named => .ok (.option named attached)
      | none =>
        if second = '-' then
          match g.abbreviated name with
          | [] => .ok (classifyOther word (second :: rest))
          | [(_, named)] => .ok (.option named attached)
          | several => .error (.ambiguous word (several.map Prod.fst))
        else if second = 'h' then .ok (.option .shortHelp (some rest))
        else .ok (classifyOther word (second :: rest))
  | _ => .ok .argument

/-- Every word with its kind. After the first separator all words are arguments. -/
def words (g : Grammar) : List String → Except ArgumentFault (List Word)
  | [] => .ok []
  | text :: rest =>
    if text = "--" then .ok (⟨text, .separator⟩ :: rest.map fun t => ⟨t, .argument⟩)
    else do
      let kind ← g.classify text
      let rest ← g.words rest
      return ⟨text, kind⟩ :: rest

end Grammar

/-! ### Reading -/

inductive Event where
  | help
  | flag (name : String)
  /-- The value of an option; one that looks like a separator leaves nothing. -/
  | value (name : String) (text : Option String)
  /-- A positional argument; a word that was taken for a separator leaves nothing. -/
  | positional (name : String) (text : Option String)
  | rest (name : String) (texts : List String)

/-- What the words amount to, in order, up to the words left over or a fault. -/
inductive Reading where
  | next (e : Event) (r : Reading)
  | done (extras : List String)
  | fault (f : ArgumentFault)

def Reading.prepend (events : List Event) (r : Reading) : Reading := events.foldr .next r

/-- The words of one positional argument, separators around it included. -/
def takeOne (words : List Word) : Option (List Word × List Word) :=
  let isSeparator := fun (w : Word) => decide (w.kind = .separator)
  let front := words.takeWhile isSeparator
  match words.dropWhile isSeparator with
  | w :: after =>
    if w.kind = .argument then
      some (front ++ w :: after.takeWhile isSeparator, after.dropWhile isSeparator)
    else none
  | [] => none

/-- The text of an argument: its words without the first that is written like a separator. -/
def argumentText (texts : List String) : Option String :=
  match texts.erase "--" with
  | [text] => some text
  | _ => none

/-- Takes as many positional arguments as there are words for. -/
def takePositionals : List Positional → List Word → List Event × List Positional × List Word
  | [], words => ([], [], words)
  | .one name :: rest, words =>
    match takeOne words with
    | none => ([], .one name :: rest, words)
    | some (taken, words) =>
      let (events, rest, words) := takePositionals rest words
      (.positional name (argumentText (taken.map Word.text)) :: events, rest, words)
  | .rest name :: rest, words =>
    match takeOne words with
    | none => ([], .rest name :: rest, words)
    | some _ => ([.rest name (words.map Word.text)], rest, [])

/-- What cannot be used of the text attached to the short option for help: it has to name more short
options, of which help is the only one. -/
def unusable? : List Char → Option (List Char)
  | [] => some []
  | 'h' :: [] => none
  | 'h' :: rest => unusable? rest
  | text => some text

/-- Takes an option; its value may be the next word. -/
def takeOption (named : Named) (attached : Option (List Char)) (after : List Word) :
    Except ArgumentFault (Event × List Word) :=
  match named, attached with
  | .long ⟨name, true⟩, none =>
    match after with
    | w :: after =>
      if w.kind = .argument then .ok (.value name (argumentText [w.text]), after)
      else .error (.noValue name)
    | [] => .error (.noValue name)
  | .long ⟨name, true⟩, some text =>
    .ok (.value name (argumentText [String.ofList text]), after)
  | .long ⟨name, false⟩, none => .ok (.flag name, after)
  | .shortHelp, none | .longHelp, none => .ok (.help, after)
  | .shortHelp, some text =>
    match unusable? text with
    | some text => .error (.ignored named.shown (String.ofList text))
    | none => .ok (.help, after)
  | named, some text => .error (.ignored named.shown (String.ofList text))

/-- The end of reading: required arguments that were not given are a fault. -/
def conclude (missing : List Positional) (extras : List String) : Reading :=
  let names := missing.filterMap fun p =>
    match p with
    | .one name => some name
    | .rest _ => none
  if names = [] then .done extras else .fault (.required names)

/-- Takes positional arguments and options in turn. Every round takes a word, so `fuel` is their
number. -/
def readFrom : Nat → List Positional → List String → List Word → Reading
  | 0, positionals, extras, _ => conclude positionals extras
  | fuel + 1, positionals, extras, words =>
    let front := words.takeWhile fun w => !w.isOption
    match words.dropWhile fun w => !w.isOption with
    | [] =>
      let (events, positionals, words) := takePositionals positionals words
      .prepend events (conclude positionals (extras ++ words.map Word.text))
    | option :: after =>
      match takePositionals positionals words with
      | (event :: events, left, rest) =>
        .prepend (event :: events) (readFrom fuel left extras rest)
      | ([], _, _) =>
        let extras := extras ++ front.map Word.text
        match option.kind with
        | .option named attached =>
          match takeOption named attached after with
          | .ok (event, after) => .next event (readFrom fuel positionals extras after)
          | .error fault => .fault fault
        | _ => readFrom fuel positionals (extras ++ [option.text]) after

/-- Reads the words of a command line. -/
def Grammar.read (g : Grammar) (texts : List String) : Reading :=
  match g.words texts with
  | .error fault => .fault fault
  | .ok words => readFrom (words.length + 1) g.positionals [] words

end TapeChain.CommandLine
