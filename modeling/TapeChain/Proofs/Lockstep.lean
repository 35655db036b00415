import TapeChain.Executable
import TapeChain.Proofs.Frames

/-! Two runs in lockstep. A change of the machine that no action notices is carried along by every
step, of the walk as of a routine: the run of the changed machine is the changed run, step for step,
up to an ending that the change leaves open. What such an ending turns into is not said here. -/
namespace TapeChain

/-! ### Steps that carry a change along -/

section
variable {σ : Type}

/-- What a step is in the changed run. It leads to the changed state, or ends alike with the changed
machine, unless it ends in an open way. -/
def Progress.Carried (alter : σ → σ) (change : Machine → Machine) (inv : σ → Prop)
    (isOpen : Ending → Prop) (changed : Progress σ) : Progress σ → Prop
  | .more s => inv s ∧ changed = .more (alter s)
  | .ended o => isOpen o.ending ∨ changed = .ended ⟨o.ending, change o.machine⟩

def Lockstep (step : σ → Progress σ) (alter : σ → σ) (change : Machine → Machine) (inv : σ → Prop)
    (isOpen : Ending → Prop) : Prop :=
  ∀ s, inv s → Progress.Carried alter change inv isOpen (step (alter s)) (step s)

namespace Lockstep

variable {step : σ → Progress σ} {alter : σ → σ} {change : Machine → Machine} {inv : σ → Prop}
  {isOpen : Ending → Prop} {s t : σ}

theorem steps (h : Lockstep step alter change inv isOpen) (hs : inv s) {n : Nat}
    (path : Steps step n s t) : Steps step n (alter s) (alter t) := by
  induction path with
  | refl s => exact .refl _
  | more first _ ih =>
      have carried := h _ hs
      rw [first] at carried
      obtain ⟨ht, changed⟩ := carried
      exact .more changed (ih ht)

theorem runFor_none (h : Lockstep step alter change inv isOpen) (hs : inv s) {fuel : Nat}
    (run : runFor step fuel s = none) : runFor step fuel (alter s) = none := by
  induction fuel generalizing s with
  | zero => rfl
  | succ fuel ih =>
      have carried := h s hs
      cases first : step s with
      | ended o =>
          rw [runFor_ended first] at run
          cases run
      | more t =>
          rw [runFor_more first] at run
          rw [first] at carried
          obtain ⟨ht, changed⟩ := carried
          rw [runFor_more changed]
          exact ih ht run

theorem runFor_some (h : Lockstep step alter change inv isOpen) (hs : inv s) {fuel : Nat} {o : Outcome}
    (run : runFor step fuel s = some o) :
    isOpen o.ending ∨ runFor step fuel (alter s) = some ⟨o.ending, change o.machine⟩ := by
  induction fuel generalizing s with
  | zero => cases run
  | succ fuel ih =>
      have carried := h s hs
      cases first : step s with
      | ended o' =>
          rw [runFor_ended first, Option.some.injEq] at run
          rw [first, run] at carried
          exact carried.imp_right fun changed => runFor_ended changed fuel
      | more t =>
          rw [runFor_more first] at run
          rw [first] at carried
          obtain ⟨ht, changed⟩ := carried
          rw [runFor_more changed]
          exact ih ht run

end Lockstep

end

/-! ### Changes that no action notices -/

/-- What an action is on the changed machine. -/
def Effect.Carried (change : Machine → Machine) (fits : Machine → Prop) (isOpen : Ending → Prop)
    (changed : Effect) : Effect → Prop
  | .done m => fits m ∧ changed = .done (change m)
  | .dry m => isOpen .exhausted ∨ changed = .dry (change m)
  | .fault f m => isOpen (.fault f) ∨ changed = .fault f (change m)

def Effect.map (change : Machine → Machine) : Effect → Effect
  | .done m => .done (change m)
  | .dry m => .dry (change m)
  | .fault f m => .fault f (change m)

theorem Effect.carried_map {change : Machine → Machine} {fits : Machine → Prop} {e : Effect}
    (kept : ∀ m, e = .done m → fits m) (isOpen : Ending → Prop) :
    Effect.Carried change fits isOpen (e.map change) e := by
  cases e with
  | done m => exact ⟨kept m rfl, rfl⟩
  | dry m => exact .inr rfl
  | fault f m => exact .inr rfl

/-- On machines that fit, no action tells the changed machine from the machine as it was, but for
actions that end the run in an open way. -/
structure Unnoticed (change : Machine → Machine) (fits : Machine → Prop) (isOpen : Ending → Prop) :
    Prop where
  address : ∀ m, fits m → (change m).address = m.address
  cell : ∀ m, fits m → (change m).cell? = m.cell?
  shift : ∀ m, fits m → ∀ offset,
    Effect.Carried change fits isOpen ((change m).shift offset) (m.shift offset)
  forward : ∀ m, fits m → ∀ cells,
    Effect.Carried change fits isOpen ((change m).forward cells) (m.forward cells)
  back : ∀ m, fits m → ∀ cells,
    Effect.Carried change fits isOpen ((change m).back cells) (m.back cells)
  add : ∀ m, fits m → ∀ delta,
    Effect.Carried change fits isOpen ((change m).add delta) (m.add delta)
  write : ∀ m, fits m → Effect.Carried change fits isOpen (change m).write m.write
  read : ∀ m, fits m → Effect.Carried change fits isOpen (change m).read m.read

variable {change : Machine → Machine} {fits : Machine → Prop} {isOpen : Ending → Prop}

/-- Both machines take the same way at a test of the current cell. -/
theorem Unnoticed.test {σ : Type} {alter : σ → σ} {inv : σ → Prop} (h : Unnoticed change fits isOpen)
    {m : Machine} (fit : fits m) (onZero otherwise : σ) (zero : inv onZero) (other : inv otherwise) :
    Progress.Carried alter change inv isOpen
      (match (change m).cell? with
        | none => .ended ⟨.fault (.noCell (change m).address), change m⟩
        | some value => if value = 0 then .more (alter onZero) else .more (alter otherwise))
      (match m.cell? with
        | none => .ended ⟨.fault (.noCell m.address), m⟩
        | some value => if value = 0 then .more onZero else .more otherwise) := by
  rw [h.cell m fit, h.address m fit]
  cases m.cell? with
  | none => exact .inr rfl
  | some value =>
      by_cases here : value = 0
      · simp only [if_pos here]
        exact ⟨zero, rfl⟩
      · simp only [if_neg here]
        exact ⟨other, rfl⟩

namespace Walk

def alter (change : Machine → Machine) (w : Walk) : Walk := { w with machine := change w.machine }

theorem proceed_carried (next : Chain) (loops : List Entered) {changed e : Effect}
    (h : Effect.Carried change fits isOpen changed e) :
    Progress.Carried (alter change) change (fun w => fits w.machine) isOpen
      (proceed next loops changed) (proceed next loops e) := by
  cases e with
  | done m =>
      obtain ⟨fit, rfl⟩ := h
      exact ⟨fit, rfl⟩
  | dry m => exact h.imp_right fun same => by rw [same]; rfl
  | fault f m => exact h.imp_right fun same => by rw [same]; rfl

theorem lockstep (h : Unnoticed change fits isOpen) :
    Lockstep step (alter change) change (fun w => fits w.machine) isOpen := by
  rintro ⟨node, loops, m⟩ fit
  cases node with
  | stop =>
      cases loops with
      | nil => exact .inr rfl
      | cons loop outer =>
          exact h.test fit (Walk.mk loop.next outer m) (Walk.mk loop.body (loop :: outer) m) fit fit
  | loop body next =>
      exact h.test fit (Walk.mk next loops m) (Walk.mk body (⟨body, next⟩ :: loops) m) fit fit
  | move offset next => exact proceed_carried next loops (h.shift m fit offset.value)
  | add delta next => exact proceed_carried next loops (h.add m fit delta.byte)
  | output next => exact proceed_carried next loops (h.write m fit)
  | input next => exact proceed_carried next loops (h.read m fit)

end Walk

namespace Activity

def alter (change : Machine → Machine) (a : Activity) : Activity :=
  { a with machine := change a.machine }

theorem proceed_carried (rest : Code) (pending : List Pending) {changed e : Effect}
    (h : Effect.Carried change fits isOpen changed e) :
    Progress.Carried (alter change) change (fun a => fits a.machine) isOpen
      (proceed rest pending changed) (proceed rest pending e) := by
  cases e with
  | done m =>
      obtain ⟨fit, rfl⟩ := h
      exact ⟨fit, rfl⟩
  | dry m => exact h.imp_right fun same => by rw [same]; rfl
  | fault f m => exact h.imp_right fun same => by rw [same]; rfl

variable {r : Routine} {c : Chain}

/-- A read that finds no input ends the run, also from inside of helpers. -/
theorem read_carried (h : Unnoticed change fits isOpen) {exit : DryExit} {pending : List Pending}
    (waiting : Waiting r exit pending) (rest : Code) {m : Machine} (fit : fits m) :
    Progress.Carried (alter change) change (fun a => fits a.machine) isOpen
      (step r ⟨.read exit rest, pending, change m⟩) (step r ⟨.read exit rest, pending, m⟩) := by
  have carried := h.read m fit
  cases hm : m.read with
  | done m' =>
      rw [hm] at carried
      obtain ⟨fit', same⟩ := carried
      simp only [step, hm, same]
      exact ⟨fit', rfl⟩
  | dry m' =>
      cases Machine.eq_of_read_dry hm
      rw [hm] at carried
      rw [waiting.step_dry rest hm]
      exact carried.imp_right (waiting.step_dry rest)
  | fault f m' =>
      rw [hm] at carried
      simp only [step, hm]
      exact carried.imp_right fun same => by rw [same]; rfl

theorem step_carried (serves : r.Serves c) (h : Unnoticed change fits isOpen) {a : Activity}
    (placed : a.Placed r) (fit : fits a.machine) :
    Progress.Carried (alter change) change (fun a => fits a.machine) isOpen
      (step r (a.alter change)) (step r a) := by
  obtain ⟨code, pending, m⟩ := a
  obtain ⟨exit, ⟨plain, inlines⟩, waiting⟩ := placed
  cases inlines with
  | done =>
      cases waiting with
      | nil => exact .inr rfl
      | loop _ _ _ => exact ⟨fit, rfl⟩
      | call _ _ _ => exact ⟨fit, rfl⟩
  | forward cells _ => exact proceed_carried _ pending (h.forward m fit cells)
  | back cells _ => exact proceed_carried _ pending (h.back m fit cells)
  | add delta _ => exact proceed_carried _ pending (h.add m fit delta)
  | write _ => exact proceed_carried _ pending (h.write m fit)
  | read _ => exact read_carried h waiting _ fit
  | @loop _ body _ rest _ _ _ =>
      exact h.test fit (Activity.mk rest pending m)
        (Activity.mk body (.loop body rest :: pending) m) fit fit
  | call _ defined _ _ =>
      simp only [alter, step, serves.helper? defined]
      exact ⟨fit, rfl⟩

theorem lockstep (serves : r.Serves c) (h : Unnoticed change fits isOpen) :
    Lockstep (step r) (alter change) change (fun a => a.Placed r ∧ fits a.machine) isOpen := by
  rintro a ⟨placed, fit⟩
  have carried := step_carried serves h placed fit
  have further := step_placed serves a placed
  cases hs : step r a with
  | ended o =>
      rw [hs] at carried
      exact carried
  | more a' =>
      rw [hs] at carried further
      exact ⟨⟨further, carried.1⟩, carried.2⟩

end Activity

/-! ### Executables -/

/-- The machines that a run comes through. -/
def Entry.Passes : Entry → Machine → Machine → Prop
  | .walk c, m, m' => ∃ n w, Steps Walk.step n ⟨c, [], m⟩ w ∧ w.machine = m'
  | .call r, m, m' => ∃ a, r.Reaches m a ∧ a.machine = m'

theorem Entry.start_unique {e : Entry} {m : Machine} {fuel fuel' : Nat} {o o' : Outcome}
    (run : e.start fuel m = some o) (run' : e.start fuel' m = some o') : o = o' := by
  cases e with
  | walk c => exact Ends.unique ⟨fuel, run⟩ ⟨fuel', run'⟩
  | call r => exact Ends.unique ⟨fuel, run⟩ ⟨fuel', run'⟩

/-- The run of the changed machine repeats the run: it is as long, comes through the same machines
but for the change, and ends alike unless the ending is open. -/
structure Entry.Repeats (e : Entry) (change : Machine → Machine) (isOpen : Ending → Prop)
    (m : Machine) : Prop where
  lasts : ∀ fuel, e.start fuel m = none → e.start fuel (change m) = none
  ends : ∀ fuel o, e.start fuel m = some o →
    isOpen o.ending ∨ e.start fuel (change m) = some ⟨o.ending, change o.machine⟩
  passes : ∀ m', e.Passes m m' → e.Passes (change m) (change m')

theorem Executable.entry_repeats {x : Executable} (coherent : x.code.Coherent)
    (h : Unnoticed change fits isOpen) {m : Machine} (fit : fits m) :
    x.entry.Repeats change isOpen m := by
  unfold entry
  cases x.config.backend with
  | interpreted =>
      have lockstep := Walk.lockstep h
      refine ⟨fun fuel => ?_, fun fuel o => ?_, ?_⟩
      · exact lockstep.runFor_none (s := ⟨x.chain, [], m⟩) fit
      · exact lockstep.runFor_some (s := ⟨x.chain, [], m⟩) fit
      · rintro _ ⟨n, w, path, rfl⟩
        exact ⟨n, _, lockstep.steps fit path, rfl⟩
  | compiled =>
      have serves : x.routine.Serves x.chain := x.code.routine_serves coherent x.config
      have lockstep := Activity.lockstep serves h
      have start : Activity.Placed x.routine ⟨x.routine.body, [], m⟩ := serves.start_placed
      refine ⟨fun fuel => ?_, fun fuel o => ?_, ?_⟩
      · exact lockstep.runFor_none (s := ⟨x.routine.body, [], m⟩) ⟨start, fit⟩
      · exact lockstep.runFor_some (s := ⟨x.routine.body, [], m⟩) ⟨start, fit⟩
      · rintro _ ⟨a, ⟨n, path⟩, rfl⟩
        exact ⟨_, ⟨n, lockstep.steps ⟨start, fit⟩ path⟩, rfl⟩

end TapeChain
