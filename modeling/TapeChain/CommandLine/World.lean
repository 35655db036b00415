import TapeChain.CommandLine.Host

/-! Surroundings kept in memory: a file tree, input, what was written, and a clock that follows a
script. -/
namespace TapeChain.CommandLine

/-- A clock in nanoseconds. Its readings in nanoseconds come in pairs, and before the second of a
pair the next of the given durations passes; the durations start over when they are used up. -/
structure ScriptedClock where
  now : Int
  readings : Nat
  durations : List Int

def ScriptedClock.start (durations : List Int) : ScriptedClock := ⟨0, 0, durations⟩

/-- The clock at its next reading in nanoseconds. -/
def ScriptedClock.next (c : ScriptedClock) : ScriptedClock :=
  let passed :=
    if c.readings % 2 = 1 then c.durations.getD (c.readings / 2 % c.durations.length) 0 else 0
  ⟨c.now + passed, c.readings + 1, c.durations⟩

/-- Nanoseconds as seconds: both the count and the quotient are rounded. -/
def toSeconds (nanoseconds : Int) : Rat :=
  Number.nearest (Number.nearest nanoseconds / 1000000000)

/-- What is written beside the output. -/
inductive Message where
  | notice (n : Notice)
  | text (s : String)

structure World where
  files : Files
  input : Bytes
  output : Bytes
  /-- The last message first. -/
  messages : List Message
  clock : ScriptedClock

namespace World

def readFile (path : String) : StateM World (Except FileFault Bytes) :=
  fun w => (w.files.read path, w)

def writeFile (path : String) (bytes : Bytes) : StateM World (Except FileFault Unit) := fun w =>
  match w.files.write path bytes with
  | .ok files => (.ok (), { w with files })
  | .error fault => (.error fault, w)

def nanoseconds : StateM World Int := fun w =>
  let clock := w.clock.next
  (clock.now, { w with clock })

def clockOf : Clock (StateM World) where
  seconds := fun w => (toSeconds w.clock.now, w)
  nanoseconds := nanoseconds

def host : Host (StateM World) where
  readFile := readFile
  writeFile := writeFile
  input := fun w => (w.input, w)
  output := fun bytes w => ((), { w with output := w.output ++ bytes })
  complain := fun s w => ((), { w with messages := .text s :: w.messages })
  report := fun n w => ((), { w with messages := .notice n :: w.messages })
  clock := clockOf

end World

end TapeChain.CommandLine
