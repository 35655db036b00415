import TapeChain.Machine.Basic

/-! The statements of a specialised routine: checked moves, additions, reads and writes, loops that
run while the current cell is not zero, and calls of helper routines. A helper is one loop: it runs
its body while the current cell is not zero, then returns. -/
namespace TapeChain

/-- What a routine does when its input is used up: the main routine returns, a helper raises a
signal for the main routine to catch. -/
inductive DryExit where
  | leave
  | signal
  deriving DecidableEq

/-- A sequence of statements. -/
inductive Code where
  | done
  | forward (cells : Nat) (rest : Code)
  | back (cells : Nat) (rest : Code)
  | add (delta : UInt8) (rest : Code)
  | write (rest : Code)
  | read (exit : DryExit) (rest : Code)
  | loop (body rest : Code)
  | call (helper : Nat) (rest : Code)
  deriving DecidableEq

/-- A helper and the number in its name. -/
structure Helper where
  number : Nat
  body : Code
  deriving DecidableEq

/-- Helpers stand in the order of their definitions. A guarded routine catches the signal that input
is used up, and returns the pointer it carries. -/
structure Routine where
  helpers : List Helper
  guarded : Bool
  body : Code
  deriving DecidableEq

def Routine.helper? (r : Routine) (number : Nat) : Option Helper :=
  r.helpers.find? fun h => h.number = number

/-- What is left to do once the statements at hand are through. -/
inductive Pending where
  | loop (body rest : Code)
  | call (rest : Code)
  deriving DecidableEq

/-- A routine in the middle of its run. -/
structure Activity where
  code : Code
  pending : List Pending
  machine : Machine

namespace Activity

/-- Leaves the innermost helper, or the routine itself. -/
def leave (m : Machine) : List Pending → Progress Activity
  | [] => .ended ⟨.exhausted, m⟩
  | .loop _ _ :: outer => leave m outer
  | .call rest :: outer => .more ⟨rest, outer, m⟩

/-- Raises the signal that input is used up. -/
def halt (guarded : Bool) (m : Machine) : Progress Activity :=
  if guarded then .ended ⟨.exhausted, m⟩ else .ended ⟨.fault (.strayHalt m.address), m⟩

def proceed (rest : Code) (pending : List Pending) : Effect → Progress Activity
  | .done m => .more ⟨rest, pending, m⟩
  | .dry m => .ended ⟨.exhausted, m⟩
  | .fault f m => .ended ⟨.fault f, m⟩

/-- One statement, or the way back to an enclosing loop or caller. -/
def step (r : Routine) : Activity → Progress Activity
  | ⟨.done, [], m⟩ => .ended ⟨.finished, m⟩
  | ⟨.done, .loop body rest :: outer, m⟩ => .more ⟨.loop body rest, outer, m⟩
  | ⟨.done, .call rest :: outer, m⟩ => .more ⟨rest, outer, m⟩
  | ⟨.forward cells rest, pending, m⟩ => proceed rest pending (m.forward cells)
  | ⟨.back cells rest, pending, m⟩ => proceed rest pending (m.back cells)
  | ⟨.add delta rest, pending, m⟩ => proceed rest pending (m.add delta)
  | ⟨.write rest, pending, m⟩ => proceed rest pending m.write
  | ⟨.read exit rest, pending, m⟩ =>
    match m.read with
    | .dry m =>
      match exit with
      | .leave => leave m pending
      | .signal => halt r.guarded m
    | effect => proceed rest pending effect
  | ⟨.loop body rest, pending, m⟩ =>
    match m.cell? with
    | none => .ended ⟨.fault (.noCell m.address), m⟩
    | some value =>
      if value = 0 then .more ⟨rest, pending, m⟩
      else .more ⟨body, .loop body rest :: pending, m⟩
  | ⟨.call number rest, pending, m⟩ =>
    match r.helper? number with
    | none => .ended ⟨.fault (.unknownHelper number), m⟩
    | some helper => .more ⟨.loop helper.body .done, .call rest :: pending, m⟩

end Activity

/-- Runs a routine from the machine's pointer on. -/
def Routine.run (fuel : Nat) (r : Routine) (m : Machine) : Option Outcome :=
  runFor (Activity.step r) fuel ⟨r.body, [], m⟩

end TapeChain
