import TapeChain.CommandLine.Host

/-! The command line on a real machine. -/
namespace TapeChain.CommandLine

/-- The number of an error, which some calls give with its sign changed. -/
def errorNumber (code : UInt32) : Nat :=
  if code < 0x80000000 then code.toNat else 4294967296 - code.toNat

/-- The fault behind an error of the system. -/
def faultOf (path : String) : IO.Error → FileFault
  | .noFileOrDirectory .. => .missing path
  | .inappropriateType _ code _ =>
    if errorNumber code = 20 then .notFolder path else .isFolder path
  | .invalidArgument .. => .nameTooLong path
  | .permissionDenied _ code _ => .system (errorNumber code) "Permission denied" path
  | e => .system 5 (toString e) path

/-- An action on the file at a path, which has to be well formed. -/
def onFile {α : Type} (path : String) (action : IO α) : IO (Except FileFault α) := do
  match Files.checkPath path with
  | .error fault => return .error fault
  | .ok _ =>
    match ← action.toBaseIO with
    | .ok a => return .ok a
    | .error e => return .error (faultOf path e)

/-- Everything that can still be read from a stream. -/
partial def readAll (stream : IO.FS.Stream) (read : ByteArray) : IO ByteArray := do
  let chunk ← stream.read 65536
  if chunk.isEmpty then return read else readAll stream (read ++ chunk)

def systemClock : Clock IO where
  seconds := do
    let now ← IO.monoNanosNow
    return Number.nearest (now / 1000000000)
  nanoseconds := do
    let now ← IO.monoNanosNow
    return now

def systemHost : Host IO where
  readFile path := onFile path do
    let bytes ← IO.FS.readBinFile path
    return bytes.data
  writeFile path bytes := onFile path (IO.FS.writeBinFile path ⟨bytes⟩)
  input := do
    let bytes ← readAll (← IO.getStdin) .empty
    return bytes.data
  output bytes := do
    let stdout ← IO.getStdout
    stdout.write ⟨bytes⟩
    stdout.flush
  complain := IO.eprint
  report notice := do
    let now ← IO.monoMsNow
    IO.eprintln s!"{now} DEBUG {notice.message}"
  clock := systemClock

/-- More steps than any run lives to make. -/
def endless : Nat := 4611686018427387904

end TapeChain.CommandLine

open TapeChain.CommandLine in
def main (words : List String) : IO UInt32 := do
  let backend ← IO.getEnv "BRAINFLY_BACKEND"
  let depth ← IO.getEnv "BRAINFLY_INLINE_DEPTH"
  let recursion ← IO.getEnv "BRAINFLY_MAX_RECURSION"
  let env := fun name =>
    if name = "BRAINFLY_BACKEND" then backend
    else if name = "BRAINFLY_INLINE_DEPTH" then depth
    else if name = "BRAINFLY_MAX_RECURSION" then recursion
    else none
  match ← execute systemHost env endless words with
  | .exit code => return UInt32.ofNat code
  | .crash failure =>
    IO.eprintln failure.message
    return 1
