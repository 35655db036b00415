import TapeChain.Executable
import TapeChain.Packing.Deflate
import TapeChain.Store.Files

/-! Program files. The suffix of the path says how a program is kept: as chain text, as packed chain
text, or as source. -/
namespace TapeChain

inductive Carrier where
  | text
  | object
  | source
  deriving DecidableEq

def textSuffix : String := ".bft"

def objectSuffix : String := ".bfo"

def Carrier.ofPath (path : String) : Carrier :=
  if Path.suffix path = objectSuffix then .object
  else if Path.suffix path = textSuffix then .text
  else .source

/-- Why packed text cannot be read. -/
inductive Corruption where
  | packing (fault : Packing.PackFault)
  | encoding (fault : Text.Utf8Fault)

def Corruption.message : Corruption → String
  | .packing fault => fault.message
  | .encoding fault => fault.message

inductive OpenFault where
  | file (fault : FileFault)
  | corrupt (path : String) (reason : Corruption)
  | notText (path : String) (fault : Text.Utf8Fault)
  | load (fault : LoadFault)

def OpenFault.message : OpenFault → String
  | .file fault => fault.message
  | .corrupt path reason => s!"Corrupt artifact {path}: {reason.message}"
  | .notText path fault => s!"{path} is not UTF-8 text: {fault.message}"
  | .load fault => fault.message

namespace ProgramFile

/-- The text in the bytes of a file. Line ends are folded, but not in packed text. -/
def decode (path : String) (bytes : Bytes) : Except OpenFault String :=
  match Carrier.ofPath path with
  | .object =>
    match Packing.unpack bytes with
    | .error fault => .error (.corrupt path (.packing fault))
    | .ok unpacked =>
      match Text.decodeUtf8 unpacked with
      | .error fault => .error (.corrupt path (.encoding fault))
      | .ok text => .ok text
  | _ =>
    match Text.decodeUtf8 bytes with
    | .error fault => .error (.notText path fault)
    | .ok text => .ok (String.ofList (Text.foldNewlines text.toList))

/-- The program in the bytes of a file. -/
def parse (config : Config) (path : String) (bytes : Bytes) :
    Except OpenFault (Executable × Notice) := do
  let text ← decode path bytes
  match Carrier.ofPath path with
  | .source => (Executable.compile config text).mapError fun m => .load (.mismatch m)
  | _ => (Executable.ofText config text).mapError fun f => .load (.artifact f)

/-- Loads a program. -/
def load (fs : Files) (config : Config) (path : String) :
    Except OpenFault (Executable × Notice) := do
  let bytes ← (fs.read path).mapError .file
  parse config path bytes

/-- The bytes of chain text. -/
def textBytes (x : Executable) : Bytes := Text.encodeUtf8 (x.chain.spell .canonical)

/-- The bytes of packed chain text. -/
def objectBytes (x : Executable) : Bytes := Packing.pack (textBytes x)

/-- What is reported after an object is written. -/
def objectNotice (x : Executable) (path : String) : Notice :=
  .wrote path (objectBytes x).size (textBytes x).size

def saveText (fs : Files) (x : Executable) (path : String) : Except FileFault Files :=
  fs.write path (textBytes x)

def saveObject (fs : Files) (x : Executable) (path : String) : Except FileFault Files :=
  fs.write path (objectBytes x)

end ProgramFile

end TapeChain
