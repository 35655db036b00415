import TapeChain.Number.Shortest
import TapeChain.Session

/-! Timing repeated runs: trials against a clock, and statistics over the times of the trials. -/
namespace TapeChain

/-- A clock, read in seconds to measure a phase and in nanoseconds to measure one run. -/
structure Clock (μ : Type → Type) where
  seconds : μ Rat
  nanoseconds : μ Int

inductive BenchFault where
  | emptyTape
  | run (f : Fault)
  | unfinished
  deriving DecidableEq

def BenchFault.message : BenchFault → String
  | .emptyTape => EmptyTape.message ⟨⟩
  | .run f => f.message
  | .unfinished => "out of steps"

namespace Bench

/-- At least so many trials are made. -/
def leastTrials : Nat := 5

/-- The machine for the next trial: all cells zero, the input at its start, no output. -/
def renew (m : Machine) : Machine := { m.rewind with address := 0, tape := m.tape.clear }

/-- What a run is worth as a trial: all that counts of a run that ends without a fault is the machine. -/
def verdict : Except EmptyTape (Option Outcome) → Except BenchFault Machine
  | .error _ => .error .emptyTape
  | .ok none => .error .unfinished
  | .ok (some ⟨.fault f, _⟩) => .error (.run f)
  | .ok (some ⟨_, m⟩) => .ok m

def trial (fuel : Nat) (entry : Entry) (m : Machine) : Except BenchFault Machine :=
  verdict (entry.run fuel m)

/-- Whether a further trial is due: there are too few, or the phase is not over. The clock is not
read while there are too few. -/
def isDue {μ : Type → Type} [Monad μ] (clock : Clock μ) (seconds : Number.Binary64)
    (started : Rat) (trials : Nat) : μ Bool :=
  if trials < leastTrials then return true
  else do
    let now ← clock.seconds
    return seconds.exceeds (Number.nearest (now - started))

/-- Trials until none is due; `samples` holds the times so far, the last first. `rounds` bounds the
number of trials. -/
def measureFrom {μ : Type → Type} [Monad μ] (clock : Clock μ) (fuel : Nat) (entry : Entry)
    (seconds : Number.Binary64) (started : Rat) :
    Nat → Machine → List Int → μ (Except BenchFault (List Int × Machine))
  | 0, _, _ => return .error .unfinished
  | rounds + 1, m, samples => do
    if ← isDue clock seconds started samples.length then
      let before ← clock.nanoseconds
      match trial fuel entry m with
      | .error fault => return .error fault
      | .ok m =>
        let after ← clock.nanoseconds
        measureFrom clock fuel entry seconds started rounds (renew m) ((after - before) :: samples)
    else return .ok (samples.reverse, m)

/-- The times of the trials in one phase of the given length, and the machine after it. -/
def measure {μ : Type → Type} [Monad μ] (clock : Clock μ) (fuel : Nat) (entry : Entry)
    (seconds : Number.Binary64) (m : Machine) : μ (Except BenchFault (List Int × Machine)) := do
  let started ← clock.seconds
  measureFrom clock fuel entry seconds started fuel m []

/-! ### Statistics -/

/-- The refusal to average nothing. -/
structure NoSamples where
  deriving DecidableEq

def NoSamples.message (_ : NoSamples) : String := "fmean requires at least one data point"

/-- The mean: the samples are rounded, then their sum, then the quotient. -/
def mean (samples : List Int) : Except NoSamples Rat :=
  if samples = [] then .error ⟨⟩
  else
    let total := Number.nearest (samples.foldl (fun (t : Rat) (s : Int) => t + Number.nearest s) 0)
    .ok (Number.nearest (total / samples.length))

/-- The population variance, exactly. -/
def variance (samples : List Int) : Rat :=
  let n := samples.length
  let total := samples.foldl (· + ·) 0
  let squares := samples.foldl (fun t s => t + s * s) 0
  ((n * squares - total * total : Int) : Rat) / (n * n : Nat)

/-- The population standard deviation, rounded once. -/
def deviation (samples : List Int) : Rat := Number.nearestRoot (variance samples)

/-- The samples that lie more than two deviations from the mean. -/
def outliers (samples : List Int) : Except NoSamples (List Int) := do
  let mean ← mean samples
  let deviation := deviation samples
  return samples.filter fun s =>
    let d := Number.nearest (Number.nearest s - mean)
    2 * deviation < if d < 0 then -d else d

/-- Takes every outlier out of the samples, at its first occurrence. -/
def trim (samples outliers : List Int) : List Int := outliers.foldl List.erase samples

end Bench

end TapeChain
