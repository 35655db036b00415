import TapeChain.Bench
import TapeChain.Proofs.Causality
import TapeChain.Proofs.Source

/-! Trials are alike. Between two trials the tape is cleared, the input goes back to its start and the
output is dropped, so that whatever a program leaves behind, every trial but the first starts from one
and the same machine and comes to one and the same end. A fault therefore shows in the first trial or
in the second. -/
namespace TapeChain.Bench

/-! ### The record of a phase -/

/-- A trial: the machine that it is given, and what comes of it. -/
structure Trial where
  start : Machine
  result : Except BenchFault Machine

section
variable {μ : Type → Type} [Monad μ]

/-- The trials of `measureFrom`, first to last, beside what it gives. -/
def recordFrom (clock : Clock μ) (fuel : Nat) (entry : Entry) (seconds : Number.Binary64)
    (started : Rat) :
    Nat → Machine → List Int → μ (List Trial × Except BenchFault (List Int × Machine))
  | 0, _, _ => return ([], .error .unfinished)
  | rounds + 1, m, samples => do
    if ← isDue clock seconds started samples.length then
      let before ← clock.nanoseconds
      match trial fuel entry m with
      | .error fault => return ([⟨m, .error fault⟩], .error fault)
      | .ok m' =>
        let after ← clock.nanoseconds
        let (trials, result) ←
          recordFrom clock fuel entry seconds started rounds (renew m') ((after - before) :: samples)
        return (⟨m, .ok m'⟩ :: trials, result)
    else return ([], .ok (samples.reverse, m))

/-- The trials of `measure`, beside what it gives. -/
def record (clock : Clock μ) (fuel : Nat) (entry : Entry) (seconds : Number.Binary64) (m : Machine) :
    μ (List Trial × Except BenchFault (List Int × Machine)) := do
  let started ← clock.seconds
  recordFrom clock fuel entry seconds started fuel m []

variable [LawfulMonad μ]

/-- The record changes nothing about the phase. -/
theorem map_recordFrom (clock : Clock μ) (fuel : Nat) (entry : Entry) (seconds : Number.Binary64)
    (started : Rat) (rounds : Nat) (m : Machine) (samples : List Int) :
    Prod.snd <$> recordFrom clock fuel entry seconds started rounds m samples =
      measureFrom clock fuel entry seconds started rounds m samples := by
  induction rounds generalizing m samples with
  | zero => simp only [recordFrom, measureFrom, map_pure]
  | succ rounds ih =>
      simp only [recordFrom, measureFrom, map_bind]
      congr 1
      funext due
      cases due with
      | false => simp only [Bool.false_eq_true, if_false, map_pure]
      | true =>
          simp only [if_true, map_bind]
          congr 1
          funext before
          cases trial fuel entry m with
          | error fault => simp only [map_pure]
          | ok m' =>
              simp only [map_bind, map_pure, ← ih]
              congr 1
              funext after
              exact bind_pure_comp _ _

theorem map_record (clock : Clock μ) (fuel : Nat) (entry : Entry) (seconds : Number.Binary64)
    (m : Machine) :
    Prod.snd <$> record clock fuel entry seconds m = measure clock fuel entry seconds m := by
  simp only [record, measure, map_bind, map_recordFrom]

end

/-! ### One round -/

/-- The trials of a phase, and what it gives. -/
abbrev Phase := List Trial × Except BenchFault (List Int × Machine)

/-- What a round can come to, `rest` being the phase that goes on from a machine after one more
trial: it is over, or fails in its trial, or goes on with the machine made anew. -/
inductive Round {σ : Type} (fuel : Nat) (entry : Entry) (m : Machine) (samples : List Int)
    (rest : Machine → List Int → σ → Phase × σ) : Phase × σ → Prop
  | ends (later : σ) : leastTrials ≤ samples.length →
      Round fuel entry m samples rest (([], .ok (samples.reverse, m)), later)
  | fails {fault : BenchFault} (later : σ) : trial fuel entry m = .error fault →
      Round fuel entry m samples rest (([⟨m, .error fault⟩], .error fault), later)
  | goesOn {m' : Machine} (time : Int) (between : σ) {trials : List Trial}
      {result : Except BenchFault (List Int × Machine)} {later : σ} : trial fuel entry m = .ok m' →
      rest (renew m') (time :: samples) between = ((trials, result), later) →
      Round fuel entry m samples rest ((⟨m, .ok m'⟩ :: trials, result), later)

section
variable {σ : Type} (clock : Clock (StateM σ)) (fuel : Nat) (entry : Entry) (seconds : Number.Binary64)
  (started : Rat)

/-- Below the least number of trials one is always due. -/
theorem least_of_not_isDue {trials : Nat} {s later : σ}
    (h : isDue clock seconds started trials s = (false, later)) : leastTrials ≤ trials := by
  by_contra few
  rw [isDue, if_pos (Nat.lt_of_not_le few)] at h
  have same : true = false := congrArg Prod.fst h
  cases same

theorem measure_eq_record (m : Machine) (s : σ) : measure clock fuel entry seconds m s =
    ((record clock fuel entry seconds m s).1.2, (record clock fuel entry seconds m s).2) :=
  (congrFun (map_record clock fuel entry seconds m) s).symm

theorem recordFrom_round (rounds : Nat) (m : Machine) (samples : List Int) (s : σ) :
    Round fuel entry m samples (recordFrom clock fuel entry seconds started rounds)
      (recordFrom clock fuel entry seconds started (rounds + 1) m samples s) := by
  simp only [recordFrom, bind, StateT.bind]
  cases due : isDue clock seconds started samples.length s with
  | mk isDue s =>
      cases isDue with
      | false => exact .ends s (least_of_not_isDue clock seconds started due)
      | true =>
          simp only [if_true, StateT.bind]
          cases outcome : trial fuel entry m with
          | error fault => exact .fails _ outcome
          | ok m' => exact .goesOn _ _ outcome rfl

/-! ### Whole phases -/

theorem renew_renew (m : Machine) : renew (renew m) = renew m := by
  simp only [renew, Machine.rewind, Tape.clear, Tape.blank, Tape.size, Array.size_replicate]

/-- Every trial of the phase is a run of the entry point. -/
theorem trials_genuine (rounds : Nat) (m : Machine) (samples : List Int) (s : σ) :
    ∀ t ∈ (recordFrom clock fuel entry seconds started rounds m samples s).1.1,
      t.result = trial fuel entry t.start := by
  induction rounds generalizing m samples s with
  | zero => exact List.forall_mem_nil _
  | succ rounds ih =>
      have round := recordFrom_round clock fuel entry seconds started rounds m samples s
      generalize recordFrom clock fuel entry seconds started (rounds + 1) m samples s = phase at round ⊢
      cases round with
      | ends later least => exact List.forall_mem_nil _
      | fails later outcome => exact List.forall_mem_singleton.mpr outcome.symm
      | @goesOn m' time between _ _ _ outcome rest =>
          have others := ih (renew m') (time :: samples) between
          rw [rest] at others
          exact List.forall_mem_cons.mpr ⟨outcome.symm, others⟩

variable {fuel entry}

/-- Trials that leave nothing behind but a machine that can be made anew. -/
def Leaves (fuel : Nat) (entry : Entry) : Prop :=
  ∀ m m', trial fuel entry m = .ok m' → renew m' = renew m

/-- A phase that starts from a machine made anew, after `taken` trials: as long as it lasts, it
repeats one trial. -/
def Phase.Repeats (fuel : Nat) (entry : Entry) (m : Machine) (taken : Nat) : Phase → Prop
  | (trials, .ok (samples, last)) => last = m ∧ leastTrials ≤ samples.length ∧
      samples.length = taken + trials.length ∧
      ∀ t ∈ trials, ∃ again, trial fuel entry m = .ok again ∧ t = ⟨m, .ok again⟩
  | (trials, .error fault) => fault = .unfinished ∨
      trial fuel entry m = .error fault ∧ trials = [⟨m, .error fault⟩]

theorem phase_repeats (leaves : Leaves fuel entry) (rounds : Nat) {m : Machine} (new : renew m = m)
    (samples : List Int) (s : σ) :
    Phase.Repeats fuel entry m samples.length
      (recordFrom clock fuel entry seconds started rounds m samples s).1 := by
  induction rounds generalizing samples s with
  | zero => exact .inl rfl
  | succ rounds ih =>
      have round := recordFrom_round clock fuel entry seconds started rounds m samples s
      generalize recordFrom clock fuel entry seconds started (rounds + 1) m samples s = phase at round ⊢
      cases round with
      | ends later least =>
          refine ⟨rfl, ?_, ?_, List.forall_mem_nil _⟩
          · rwa [List.length_reverse]
          · exact List.length_reverse
      | fails later outcome => exact .inr ⟨outcome, rfl⟩
      | @goesOn m' time between trials result later outcome rest =>
          have others := ih (time :: samples) between
          rw [leaves m m' outcome, new] at rest
          rw [rest] at others
          cases result with
          | ok given =>
              obtain ⟨out, last⟩ := given
              obtain ⟨same, least, length, alike⟩ := others
              refine ⟨same, least, ?_, List.forall_mem_cons.mpr ⟨⟨m', outcome, rfl⟩, alike⟩⟩
              rw [List.length_cons] at length ⊢
              omega
          | error fault =>
              obtain unfinished | ⟨fails, -⟩ := others
              · exact .inl unfinished
              · rw [outcome] at fails
                cases fails

/-- A phase from its first trial on: the first starts from the machine as it is, all others from the
machine made anew. -/
def Phase.Alike (m : Machine) : Phase → Prop
  | (trials, .ok (samples, last)) => leastTrials ≤ samples.length ∧ last = renew m ∧
      ∃ first again, trials = ⟨m, .ok first⟩ ::
          List.replicate (samples.length - 1) ⟨renew m, .ok again⟩ ∧ (renew m = m → first = again)
  | (trials, .error fault) => fault ≠ .unfinished → trials = [⟨m, .error fault⟩] ∨
      ∃ first, trials = [⟨m, .ok first⟩, ⟨renew m, .error fault⟩]

theorem phase_alike (leaves : Leaves fuel entry) (rounds : Nat) (m : Machine) (s : σ) :
    Phase.Alike m (recordFrom clock fuel entry seconds started rounds m [] s).1 := by
  cases rounds with
  | zero => exact fun other => absurd rfl other
  | succ rounds =>
      have round := recordFrom_round clock fuel entry seconds started rounds m [] s
      generalize recordFrom clock fuel entry seconds started (rounds + 1) m [] s = phase at round ⊢
      cases round with
      | ends later least => exact absurd least (by decide)
      | fails later outcome => exact fun _ => .inl rfl
      | @goesOn first time between trials result later outcome rest =>
          have others := phase_repeats clock seconds started leaves rounds (renew_renew m) [time] between
          rw [leaves m first outcome] at rest
          rw [rest] at others
          cases result with
          | error fault =>
              intro other
              obtain unfinished | ⟨-, rfl⟩ := others
              · exact absurd unfinished other
              · exact .inr ⟨first, rfl⟩
          | ok given =>
              obtain ⟨samples, last⟩ := given
              obtain ⟨same, least, length, alike⟩ := others
              refine ⟨least, same, first, ?_⟩
              -- the least number of trials leaves more than the first one
              have repeated : trials ≠ [] := by
                rintro rfl
                rw [length] at least
                change leastTrials ≤ 1 at least
                exact absurd least (by decide)
              obtain ⟨again, outcome', -⟩ := alike _ (List.head_mem repeated)
              have all : ∀ t ∈ trials, t = ⟨renew m, .ok again⟩ := by
                intro t mem
                obtain ⟨again', outcome'', rfl⟩ := alike t mem
                rw [← outcome'', outcome']
              refine ⟨again, ?_, ?_⟩
              · rw [length, List.length_singleton, Nat.add_sub_cancel_left,
                  ← List.eq_replicate_of_mem all]
              · intro new
                rw [new, outcome] at outcome'
                exact Except.ok.inj outcome'

end

/-! ### What a trial leaves behind -/

theorem verdict_eq_ok {r : Except EmptyTape (Option Outcome)} {m : Machine} (h : verdict r = .ok m) :
    ∃ ending, r = .ok (some ⟨ending, m⟩) := by
  unfold verdict at h
  split at h
  · cases h
  · cases h
  · cases h
  · next ending _ _ =>
      cases h
      exact ⟨ending, rfl⟩

theorem start_of_trial {fuel : Nat} {entry : Entry} {m m' : Machine}
    (h : trial fuel entry m = .ok m') :
    0 < m.tape.size ∧ ∃ ending, entry.start fuel { m with address := 0 } = some ⟨ending, m'⟩ := by
  obtain ⟨ending, run⟩ := verdict_eq_ok h
  unfold Entry.run at run
  split at run
  · cases run
  · next cells => exact ⟨Nat.pos_of_ne_zero cells, ending, Except.ok.inj run⟩

theorem leaves_of_coherent {x : Executable} (coherent : x.code.Coherent) (fuel : Nat) :
    Leaves fuel x.entry := by
  intro m m' outcome
  obtain ⟨cells, ending, run⟩ := start_of_trial outcome
  have on : ({ m with address := 0 } : Machine).onTape = true := Machine.onTape_start cells
  have safe := Walk.ends_safe (w := ⟨x.chain, [], { m with address := 0 }⟩) on
    ((Executable.enter_ends_iff_walk coherent on _).mp ⟨fuel, run⟩)
  have size : m'.tape.size = m.tape.size := safe.1
  have input : m'.input = m.input := (Entry.onward_of_start run).input
  simp only [renew, Machine.rewind, Tape.clear, size, input]

/-- Trials are runs of the program, and they are alike, whatever the program and whatever the clock says.
A phase that ends has made the least number of trials or more; the first starts from the given tape, and every other from a blank tape
of that length, with all of the input ahead and no output, so that all of these come to one result, and
the first too if the tape was blank. The phase leaves such a machine behind. A fault that ends the phase
is that of its first or its second trial. -/
theorem trials_are_alike (x : Executable) (coherent : x.code.Coherent) {σ : Type}
    (clock : Clock (StateM σ)) (s : σ) (fuel : Nat) (seconds : Number.Binary64) (tape : Tape)
    (input : Bytes) :
    ∃ trials result later,
      record clock fuel x.entry seconds ⟨0, tape, input, 0, #[]⟩ s = ((trials, result), later) ∧
      measure clock fuel x.entry seconds ⟨0, tape, input, 0, #[]⟩ s = (result, later) ∧
      (∀ t ∈ trials, t.result = verdict (x.run fuel t.start)) ∧
      (∀ samples last, result = .ok (samples, last) →
        leastTrials ≤ samples.length ∧ last = ⟨0, .blank tape.size, input, 0, #[]⟩ ∧
        ∃ first again, trials = ⟨⟨0, tape, input, 0, #[]⟩, .ok first⟩ ::
            List.replicate (samples.length - 1) ⟨⟨0, .blank tape.size, input, 0, #[]⟩, .ok again⟩ ∧
          (tape = .blank tape.size → first = again)) ∧
      ∀ fault, result = .error fault → fault ≠ .unfinished →
        trials = [⟨⟨0, tape, input, 0, #[]⟩, .error fault⟩] ∨
        ∃ first, trials = [⟨⟨0, tape, input, 0, #[]⟩, .ok first⟩,
          ⟨⟨0, .blank tape.size, input, 0, #[]⟩, .error fault⟩] := by
  have phase : Phase.Alike ⟨0, tape, input, 0, #[]⟩
      (record clock fuel x.entry seconds ⟨0, tape, input, 0, #[]⟩ s).1 :=
    phase_alike clock seconds (clock.seconds s).1 (leaves_of_coherent coherent fuel) fuel _ _
  have genuine : ∀ t ∈ (record clock fuel x.entry seconds ⟨0, tape, input, 0, #[]⟩ s).1.1,
      t.result = verdict (x.run fuel t.start) :=
    trials_genuine clock fuel x.entry seconds (clock.seconds s).1 fuel _ [] _
  rw [measure_eq_record]
  generalize record clock fuel x.entry seconds ⟨0, tape, input, 0, #[]⟩ s = recorded at phase genuine ⊢
  obtain ⟨⟨trials, result⟩, later⟩ := recorded
  refine ⟨trials, result, later, rfl, rfl, genuine, ?_, ?_⟩
  · rintro samples last rfl
    obtain ⟨least, same, first, again, alike, new⟩ := phase
    refine ⟨least, same, first, again, alike, ?_⟩
    intro blank
    apply new
    rw [blank]
    exact renew_renew ⟨0, tape, input, 0, #[]⟩
  · rintro fault rfl
    exact phase

/-- A clock that counts its readings and stands still in seconds. -/
def countingClock : Clock (StateM Int) := ⟨fun count => (0, count), fun count => (count, count + 1)⟩

/-- The first trial writes what stood on the tape, the others a zero; all read the one byte of input and
run out of it. -/
theorem stale_cell_trials_alike :
    (Linked.fresh (.output (.input (.input .stop)))).Coherent ∧
      record countingClock 8
          (Executable.entry ⟨.fresh (.output (.input (.input .stop))), { backend := .interpreted }⟩)
          (.finite false 0) ⟨0, ⟨#[7]⟩, #[65], 0, #[]⟩ 0 =
        ((⟨⟨0, ⟨#[7]⟩, #[65], 0, #[]⟩, .ok ⟨0, ⟨#[65]⟩, #[65], 1, #[7]⟩⟩ ::
            List.replicate 4
              ⟨⟨0, ⟨#[0]⟩, #[65], 0, #[]⟩, .ok ⟨0, ⟨#[65]⟩, #[65], 1, #[0]⟩⟩,
          .ok ([1, 1, 1, 1, 1], ⟨0, ⟨#[0]⟩, #[65], 0, #[]⟩)), 10) := by
  have coherent := Linked.fresh_coherent (.output (.input (.input .stop)))
  have measured : @Eq (Except BenchFault (List Int × Machine) × Int)
      (measure countingClock 8
        (Executable.entry ⟨.fresh (.output (.input (.input .stop))), { backend := .interpreted }⟩)
        (.finite false 0) ⟨0, ⟨#[7]⟩, #[65], 0, #[]⟩ 0)
      (.ok ([1, 1, 1, 1, 1], ⟨0, ⟨#[0]⟩, #[65], 0, #[]⟩), 10) := by
    decide +kernel
  obtain ⟨trials, result, later, recorded, same, genuine, alike, -⟩ := trials_are_alike
    ⟨.fresh (.output (.input (.input .stop))), { backend := .interpreted }⟩ coherent countingClock 0 8
    (.finite false 0) ⟨#[7]⟩ #[65]
  rw [measured] at same
  cases same
  obtain ⟨-, -, first, again, rfl, -⟩ := alike _ _ rfl
  have stale : verdict (Executable.run 8 ⟨.fresh (.output (.input (.input .stop))),
      { backend := .interpreted }⟩ ⟨0, ⟨#[7]⟩, #[65], 0, #[]⟩) =
        .ok ⟨0, ⟨#[65]⟩, #[65], 1, #[7]⟩ := by decide +kernel
  have clear : verdict (Executable.run 8 ⟨.fresh (.output (.input (.input .stop))),
      { backend := .interpreted }⟩ ⟨0, ⟨#[0]⟩, #[65], 0, #[]⟩) =
        .ok ⟨0, ⟨#[65]⟩, #[65], 1, #[0]⟩ := by decide +kernel
  cases (genuine _ (.head _)).trans stale
  cases (genuine _ (.tail _ (.head _))).trans clear
  exact ⟨coherent, recorded⟩

end TapeChain.Bench
