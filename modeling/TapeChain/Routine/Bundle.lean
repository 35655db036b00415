import TapeChain.Executable

/-! A stand-alone script around a routine. -/
namespace TapeChain

def bundleHeader (script chainText : String) : List String :=
  ["#!/usr/bin/env python3",
   "\"\"\"Standalone Brainfly program.",
   "",
   s!"Usage: python {script} [memory_size]",
   "\"\"\"",
   "import sys",
   "",
   "CHAIN = " ++ Text.quote chainText,
   "",
   "",
   "class TapeFault(Exception):",
   "    def __init__(self, address, size):",
   "        super().__init__(f\"Pointer \x7baddress\x7d is outside the tape [0, \x7bsize\x7d)\")",
   "",
   ""]

def bundleFooter : List String :=
  ["",
   "",
   "def main(argv):",
   "    size = max(int(argv[0]) if argv else 30000, 128)",
   "    memory = bytearray(size)",
   "    address = run(0, memory, sys.stdin.buffer, sys.stdout.buffer)",
   "    sys.stdout.buffer.flush()",
   "    return address & 0xFF",
   "",
   "",
   "if __name__ == \"__main__\":",
   "    sys.exit(main(sys.argv[1:]))"]

def defaultScript : String := "program.py"

/-- The script's name goes into the usage line as it is. -/
def Executable.bundle (x : Executable) (script : String) : String :=
  String.join ((bundleHeader script (x.chain.spell .canonical)).map (· ++ "\n")) ++
    x.routine.text ++ String.join (bundleFooter.map (· ++ "\n"))

end TapeChain
