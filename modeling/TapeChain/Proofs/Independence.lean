import TapeChain.Session
import Mathlib.Data.List.Basic

/-! Requests stand alone. A session keeps entry points that earlier requests have made, and the loops
that an aborted walk has left open; neither shows in what a later request answers or does to the
machine. It is as if the request were the first one, made to new programs and a new interpreter on the
machine as it is now. An entry point, once made, is never lost. -/
namespace TapeChain

namespace Interpreter

theorem resume_fst (fuel : Nat) (w : Walk) : (resume fuel w).1 = runFor Walk.step fuel w := by
  induction fuel generalizing w with
  | zero => rfl
  | succ fuel ih =>
      rw [resume, runFor]
      cases w.step with
      | more w' => exact ih w'
      | ended o => rfl

/-- The outcome of a walk does not depend on what earlier walks have left. -/
theorem walk_fst (fuel : Nat) (i : Interpreter) (c : Chain) (m : Machine) :
    (i.walk fuel c m).1 = c.walk fuel m := resume_fst fuel ⟨c, [], m⟩

end Interpreter

namespace Prepared

/-- An entry point that was made is the one that would be made now. -/
def Honest (p : Prepared) : Prop := ∀ e ∈ p.entry, e = p.executable.entry

theorem Honest.bind_eq {p : Prepared} (h : p.Honest) :
    p.bind = (p.executable.entry, ⟨p.executable, some p.executable.entry⟩) := by
  obtain ⟨x, entry⟩ := p
  cases entry with
  | none => rfl
  | some e =>
      rw [h e rfl]
      rfl

theorem isBound_bind (p : Prepared) : p.bind.2.isBound = true := by
  obtain ⟨x, entry⟩ := p
  cases entry with
  | none => rfl
  | some e => rfl

end Prepared

/-- The request makes a program's entry point, unless it is made already. A run on an empty tape is
refused before that. -/
def Request.needs (m : Machine) (i : Nat) : Request → Bool
  | .run j => j = i && m.tape.size != 0
  | .enter j _ => j = i
  | _ => false

def Request.AsksBound : Request → Prop
  | .isBound _ => True
  | _ => False

theorem Machine.poke_address {m m' : Machine} {index value : Int} (h : m.poke index value = .ok m') :
    m'.address = m.address := by
  unfold poke at h
  split at h
  · split at h
    · split at h
      · cases h
        rfl
      · cases h
    · cases h
  · cases h

namespace Session

/-- The program's entry point is made. -/
def IsBound (s : Session) (i : Nat) : Prop := s.programs[i]?.any Prepared.isBound = true

/-- The session after some requests. -/
def after (fuel : Nat) (s : Session) (requests : List Request) : Session :=
  requests.foldl (fun s r => (s.step fuel r).2) s

/-- What can be seen of an answer: the reply, and the tape and streams after it. -/
def seen (answer : Reply × Session) : Reply × Machine := (answer.1, answer.2.machine)

variable {s s' : Session} {fuel : Nat}

/-! ### One request -/

theorem conclude_programs (s : Session) (reply : Outcome → Reply) (o : Option Outcome) :
    (s.conclude reply o).2.programs = s.programs := by
  cases o with
  | none => rfl
  | some o =>
      rw [conclude]
      cases o.ending with
      | finished => rfl
      | exhausted => rfl
      | fault f => rfl

theorem conclude_address (h : s.machine.address = 0) (reply : Outcome → Reply) (o : Option Outcome) :
    (s.conclude reply o).2.machine.address = 0 := by
  cases o with
  | none => exact h
  | some o =>
      rw [conclude]
      cases o.ending with
      | finished => rfl
      | exhausted => rfl
      | fault f => rfl

theorem seen_conclude (same : s.machine = s'.machine) (reply : Outcome → Reply)
    (o : Option Outcome) : seen (s.conclude reply o) = seen (s'.conclude reply o) := by
  cases o with
  | none => exact congrArg (Prod.mk _) same
  | some o =>
      rw [conclude, conclude]
      cases o.ending with
      | finished => rfl
      | exhausted => rfl
      | fault f => rfl

/-- What a request can do: bind a program and enter it, walk a chain, or change the machine alone.
Only the first makes an entry point. -/
theorem step_cases (fuel : Nat) (s : Session) (r : Request) :
    (∃ i p address, s.programs[i]? = some p ∧ (∀ j, r.needs s.machine j = decide (i = j)) ∧
      s.step fuel r = s.enter fuel i p address) ∨
    (∃ p address reply, (∀ j, r.needs s.machine j = false) ∧
      s.step fuel r = s.walk fuel p address reply) ∨
    ∃ reply machine, (∀ j p, s.programs[j]? = some p → r.needs s.machine j = false) ∧
      s.step fuel r = (reply, { s with machine }) ∧ machine.address = s.machine.address := by
  cases r with
  | run i =>
      rw [step, withProgram]
      split
      next p found =>
        split
        next empty =>
          refine .inr (.inr ⟨_, _, fun j _ _ => ?_, rfl, rfl⟩)
          rw [Request.needs, empty, bne_self_eq_false, Bool.and_false]
        next cells =>
          refine .inl ⟨i, p, 0, found, fun j => ?_, rfl⟩
          rw [Request.needs, bne_iff_ne.mpr cells, Bool.and_true]
      next missing =>
        refine .inr (.inr ⟨_, _, fun j p found => ?_, rfl, rfl⟩)
        have other : i ≠ j := by
          rintro rfl
          cases missing.symm.trans found
        rw [Request.needs, decide_eq_false other, Bool.false_and]
  | enter i address =>
      rw [step, withProgram]
      split
      next p found => exact .inl ⟨i, p, address, found, fun _ => rfl, rfl⟩
      next missing =>
        refine .inr (.inr ⟨_, _, fun j p found => decide_eq_false ?_, rfl, rfl⟩)
        rintro rfl
        cases missing.symm.trans found
  | walk i address =>
      rw [step, withProgram]
      split
      next p _ => exact .inr (.inl ⟨p, address, walkEnd, fun _ => rfl, rfl⟩)
      next => exact .inr (.inr ⟨_, _, fun _ _ _ => rfl, rfl, rfl⟩)
  | walkOnly i address =>
      rw [step, withProgram]
      split
      next p _ => exact .inr (.inl ⟨p, address, arrival, fun _ => rfl, rfl⟩)
      next => exact .inr (.inr ⟨_, _, fun _ _ _ => rfl, rfl, rfl⟩)
  | isBound i =>
      rw [step, withProgram]
      split
      · exact .inr (.inr ⟨_, _, fun _ _ _ => rfl, rfl, rfl⟩)
      · exact .inr (.inr ⟨_, _, fun _ _ _ => rfl, rfl, rfl⟩)
  | poke index value =>
      rw [step]
      split
      next machine poked =>
        exact .inr (.inr ⟨_, _, fun _ _ _ => rfl, rfl, Machine.poke_address poked⟩)
      next => exact .inr (.inr ⟨_, _, fun _ _ _ => rfl, rfl, rfl⟩)
  | reset => exact .inr (.inr ⟨_, _, fun _ _ _ => rfl, rfl, rfl⟩)
  | flush => exact .inr (.inr ⟨_, _, fun _ _ _ => rfl, rfl, rfl⟩)
  | read count => exact .inr (.inr ⟨_, _, fun _ _ _ => rfl, rfl, rfl⟩)
  | write bytes => exact .inr (.inr ⟨_, _, fun _ _ _ => rfl, rfl, rfl⟩)
  | feed bytes => exact .inr (.inr ⟨_, _, fun _ _ _ => rfl, rfl, rfl⟩)
  | resize size => exact .inr (.inr ⟨_, _, fun _ _ _ => rfl, rfl, rfl⟩)

/-- A request makes the entry point that it needs, and changes no other one. -/
theorem step_programs (fuel : Nat) (s : Session) (r : Request) (j : Nat) :
    (s.step fuel r).2.programs[j]? =
      s.programs[j]?.map fun p => if r.needs s.machine j then p.bind.2 else p := by
  rcases step_cases fuel s r with ⟨i, p, address, found, needs, same⟩ |
    ⟨p, address, reply, idle, same⟩ | ⟨reply, machine, idle, same, -⟩
  · have set : (s.enter fuel i p address).2.programs = s.programs.setIfInBounds i p.bind.2 :=
      conclude_programs _ arrival _
    have inside := (Array.getElem?_eq_some_iff.mp found).1
    simp only [same, set, needs, Array.getElem?_setIfInBounds, decide_eq_true_eq, inside, if_true]
    split
    next here => rw [← here, found, Option.map_some]
    next => exact Option.map_id'.symm
  · have kept : (s.walk fuel p address reply).2.programs = s.programs := conclude_programs _ reply _
    rw [same, kept, idle]
    exact Option.map_id'.symm
  · rw [same]
    refine Option.map_id'.symm.trans (Option.map_congr fun p found => ?_)
    rw [idle j p found]
    rfl

/-- Between requests the pointer is back at the start. -/
theorem step_address (fuel : Nat) (h : s.machine.address = 0) (r : Request) :
    (s.step fuel r).2.machine.address = 0 := by
  rcases step_cases fuel s r with ⟨i, p, address, -, -, same⟩ | ⟨p, address, reply, -, same⟩ |
    ⟨reply, machine, -, same, kept⟩
  · rw [same]
    refine conclude_address ?_ arrival _
    exact h
  · rw [same]
    refine conclude_address ?_ reply _
    exact h
  · rw [same]
    exact kept.trans h

/-! ### Sessions over given programs -/

/-- The session holds the given programs, with entry points or without. -/
structure Holds (s : Session) (programs : List Executable) : Prop where
  executables : ∀ i : Nat, s.programs[i]?.map Prepared.executable = programs[i]?
  honest : ∀ (i : Nat) (p : Prepared), s.programs[i]? = some p → p.Honest
  address : s.machine.address = 0

namespace Holds

variable {programs : List Executable}

theorem start (programs : List Executable) (m : Machine) :
    (Session.start programs m).Holds programs := by
  have fresh (i : Nat) : (Session.start programs m).programs[i]? =
      programs[i]?.map Prepared.ofExecutable := by
    rw [Session.start, List.getElem?_toArray, List.getElem?_map]
  refine ⟨fun i => ?_, fun i p found => ?_, rfl⟩
  · rw [fresh, Option.map_map]
    exact Option.map_id'
  · rw [fresh] at found
    obtain ⟨x, -, rfl⟩ := Option.map_eq_some_iff.mp found
    rintro e ⟨⟩

theorem step (h : s.Holds programs) (fuel : Nat) (r : Request) :
    (s.step fuel r).2.Holds programs := by
  refine ⟨fun i => ?_, fun i p found => ?_, step_address fuel h.address r⟩
  · rw [step_programs, Option.map_map, ← h.executables i]
    refine Option.map_congr fun p found => ?_
    rw [Function.comp_apply, apply_ite Prepared.executable, (h.honest i p found).bind_eq, ite_self]
  · rw [step_programs] at found
    obtain ⟨q, present, rfl⟩ := Option.map_eq_some_iff.mp found
    have honest := h.honest i q present
    split
    · rw [honest.bind_eq]
      rintro e ⟨⟩
      rfl
    · exact honest

theorem after (h : s.Holds programs) (fuel : Nat) (requests : List Request) :
    (s.after fuel requests).Holds programs := by
  induction requests generalizing s with
  | nil => exact h
  | cons r requests ih => exact ih (h.step fuel r)

/-- The program at a place, as it is held. -/
theorem program (h : s.Holds programs) {i : Nat} {x : Executable} (found : programs[i]? = some x) :
    ∃ p, s.programs[i]? = some p ∧ p.executable = x ∧ p.Honest := by
  rw [← h.executables i] at found
  obtain ⟨p, held, rfl⟩ := Option.map_eq_some_iff.mp found
  exact ⟨p, held, rfl, h.honest i p held⟩

theorem missing (h : s.Holds programs) {i : Nat} (absent : programs[i]? = none)
    (use : Prepared → Reply × Session) :
    seen (s.withProgram i use) = (.refused (.noProgram i), s.machine) := by
  rw [← h.executables i, Option.map_eq_none_iff] at absent
  rw [withProgram, absent, seen]

/-! ### What is seen of a program's run -/

variable {i : Nat} {x : Executable}

theorem seen_bound {p : Prepared} (honest : p.Honest) (fuel : Nat) (address : Int) :
    seen (s.enter fuel i p address) =
      seen (s.conclude arrival (p.executable.enter fuel { s.machine with address })) := by
  rw [enter, honest.bind_eq]
  refine seen_conclude ?_ arrival _
  rfl

theorem seen_enter (h : s.Holds programs) (found : programs[i]? = some x) (fuel : Nat)
    (address : Int) : seen (s.step fuel (.enter i address)) =
      seen (s.conclude arrival (x.enter fuel { s.machine with address })) := by
  obtain ⟨p, held, rfl, honest⟩ := h.program found
  rw [Session.step, withProgram, held]
  exact seen_bound honest fuel address

theorem seen_run (h : s.Holds programs) (found : programs[i]? = some x) (fuel : Nat) :
    seen (s.step fuel (.run i)) =
      match x.run fuel s.machine with
      | .error _ => (.refused .emptyTape, s.machine)
      | .ok o => seen (s.conclude arrival o) := by
  obtain ⟨p, held, rfl, honest⟩ := h.program found
  rw [Session.step, withProgram, held, Executable.run, Entry.run]
  dsimp only
  split
  · rfl
  · exact seen_bound honest fuel 0

theorem seen_walked (p : Prepared) (fuel : Nat) (address : Int) (reply : Outcome → Reply) :
    seen (s.walk fuel p address reply) =
      seen (s.conclude reply (p.executable.chain.walk fuel { s.machine with address })) := by
  rw [walk, ← s.interpreter.walk_fst]
  refine seen_conclude ?_ reply _
  rfl

theorem seen_walk (h : s.Holds programs) (found : programs[i]? = some x) (fuel : Nat)
    (address : Int) : seen (s.step fuel (.walk i address)) =
      seen (s.conclude walkEnd (x.chain.walk fuel { s.machine with address })) := by
  obtain ⟨p, held, rfl, -⟩ := h.program found
  rw [Session.step, withProgram, held]
  exact seen_walked p fuel address walkEnd

theorem seen_walkOnly (h : s.Holds programs) (found : programs[i]? = some x) (fuel : Nat)
    (address : Int) : seen (s.step fuel (.walkOnly i address)) =
      seen (s.conclude arrival (x.chain.walk fuel { s.machine with address })) := by
  obtain ⟨p, held, rfl, -⟩ := h.program found
  rw [Session.step, withProgram, held]
  exact seen_walked p fuel address arrival

/-- What is seen of a request depends on the programs and the machine only. -/
theorem seen_step (h : s.Holds programs) (h' : s'.Holds programs) (same : s.machine = s'.machine)
    (fuel : Nat) {r : Request} (other : ¬ r.AsksBound) :
    seen (s.step fuel r) = seen (s'.step fuel r) := by
  cases r with
  | run i =>
      cases found : programs[i]? with
      | none => exact (h.missing found _).trans ((same ▸ h'.missing found _).symm)
      | some x =>
          rw [h.seen_run found, h'.seen_run found, same]
          cases x.run fuel s'.machine with
          | error e => rfl
          | ok o => exact seen_conclude same arrival o
  | enter i address =>
      cases found : programs[i]? with
      | none => exact (h.missing found _).trans ((same ▸ h'.missing found _).symm)
      | some x =>
          rw [h.seen_enter found, h'.seen_enter found, ← same]
          exact seen_conclude same arrival _
  | walk i address =>
      cases found : programs[i]? with
      | none => exact (h.missing found _).trans ((same ▸ h'.missing found _).symm)
      | some x =>
          rw [h.seen_walk found, h'.seen_walk found, ← same]
          exact seen_conclude same walkEnd _
  | walkOnly i address =>
      cases found : programs[i]? with
      | none => exact (h.missing found _).trans ((same ▸ h'.missing found _).symm)
      | some x =>
          rw [h.seen_walkOnly found, h'.seen_walkOnly found, ← same]
          exact seen_conclude same arrival _
  | isBound i => exact absurd trivial other
  | poke index value =>
      rw [Session.step, Session.step, same]
      cases s'.machine.poke index value with
      | ok machine => rfl
      | error fault => exact congrArg (Prod.mk _) same
  | reset => rw [Session.step, Session.step, seen, seen, same]
  | flush => rw [Session.step, Session.step, seen, seen, same]
  | read count => rw [Session.step, Session.step, seen, seen, same]
  | write bytes => rw [Session.step, Session.step, seen, seen, same]
  | feed bytes => rw [Session.step, Session.step, seen, seen, same]
  | resize size => rw [Session.step, Session.step, seen, seen, same]

end Holds

/-! ### Entry points -/

theorem not_isBound_start (programs : List Executable) (m : Machine) (i : Nat) :
    ¬ (start programs m).IsBound i := by
  rw [IsBound, start, List.getElem?_toArray, List.getElem?_map]
  cases programs[i]? with
  | none => exact Bool.false_ne_true
  | some x => exact Bool.false_ne_true

namespace Holds

variable {programs : List Executable}

theorem isBound_step (h : s.Holds programs) (fuel : Nat) (r : Request) (i : Nat) :
    (s.step fuel r).2.IsBound i ↔
      s.IsBound i ∨ i < programs.length ∧ r.needs s.machine i = true := by
  rw [IsBound, IsBound, step_programs]
  cases found : programs[i]? with
  | none =>
      have outside := List.getElem?_eq_none_iff.mp found
      rw [← h.executables i, Option.map_eq_none_iff] at found
      rw [found]
      simp only [Option.map_none, Option.any_none, Bool.false_eq_true, false_or]
      exact iff_of_false id fun needed => absurd needed.1 (Nat.not_lt.mpr outside)
  | some x =>
      obtain ⟨inside, -⟩ := List.getElem?_eq_some_iff.mp found
      obtain ⟨p, held, -⟩ := h.program found
      rw [held, Option.map_some, Option.any_some, Option.any_some]
      split
      next needed => exact iff_of_true p.isBound_bind (.inr ⟨inside, needed⟩)
      next idle => exact (or_iff_left fun needed => idle needed.2).symm

/-- After some requests those entry points are made that one of them needed when it came. -/
theorem isBound_after (h : s.Holds programs) (fuel : Nat) (requests : List Request) (i : Nat) :
    (s.after fuel requests).IsBound i ↔ s.IsBound i ∨ i < programs.length ∧
      ∃ past r later, requests = past ++ r :: later ∧ r.needs (s.after fuel past).machine i = true := by
  induction requests generalizing s with
  | nil =>
      refine (or_iff_left ?_).symm
      rintro ⟨-, past, r, later, empty, -⟩
      exact List.append_ne_nil_of_right_ne_nil past (List.cons_ne_nil r later) empty.symm
  | cons first requests ih =>
      have unfolded := ih (h.step fuel first)
      rw [h.isBound_step fuel first i, or_assoc] at unfolded
      refine unfolded.trans (or_congr_right ?_)
      rw [← and_or_left]
      refine and_congr_right fun _ => ?_
      constructor
      · rintro (needed | ⟨past, r, later, rfl, needed⟩)
        · exact ⟨[], first, requests, rfl, needed⟩
        · exact ⟨first :: past, r, later, rfl, needed⟩
      · rintro ⟨past, r, later, split, needed⟩
        cases past with
        | nil =>
            cases split
            exact .inl needed
        | cons _ past =>
            cases split
            exact .inr ⟨past, r, later, rfl, needed⟩

end Holds

/-! ### Requests stand alone -/

theorem replay_after (fuel : Nat) (s : Session) (past : List Request) (r : Request)
    (later : List Request) :
    (s.replay fuel (past ++ r :: later))[past.length]? = some ((s.after fuel past).step fuel r) := by
  induction past generalizing s with
  | nil => rfl
  | cons first past ih => exact ih (s.step fuel first).2

end Session

open Session in
/-- After any requests, aborted ones included, a request answers and does to tape and streams what it
would as the first request to new programs and a new interpreter on the machine as it is. A program's
run comes to what the bare executable or the bare chain comes to. Those entry points are made that an
earlier request needed, and they stay made; a run on an empty tape changes nothing at all. -/
theorem requests_stand_alone (fuel : Nat) (programs : List Executable) (m : Machine)
    (past : List Request) (s : Session) (reached : s = (start programs m).after fuel past) :
    (∀ r later, ((start programs m).replay fuel (past ++ r :: later))[past.length]? =
      some (s.step fuel r)) ∧
    (∀ r, ¬ r.AsksBound →
      seen (s.step fuel r) = seen ((start programs s.machine).step fuel r)) ∧
    (∀ i x, programs[i]? = some x →
      (seen (s.step fuel (.run i)) =
        match x.run fuel s.machine with
        | .error _ => (.refused .emptyTape, s.machine)
        | .ok o => seen (s.conclude arrival o)) ∧
      ∀ address : Int,
        seen (s.step fuel (.enter i address)) =
          seen (s.conclude arrival (x.enter fuel { s.machine with address })) ∧
        seen (s.step fuel (.walk i address)) =
          seen (s.conclude walkEnd (x.chain.walk fuel { s.machine with address }))) ∧
    (∀ i, s.IsBound i ↔ i < programs.length ∧ ∃ before r later, past = before ++ r :: later ∧
      r.needs ((start programs m).after fuel before).machine i = true) ∧
    (∀ i r, s.IsBound i → (s.step fuel r).2.IsBound i) ∧
    (∀ i, i < programs.length → ∃ answer, s.step fuel (.isBound i) = (.isBound answer, s) ∧
      (answer = true ↔ s.IsBound i)) ∧
    (∀ i, i < programs.length → s.machine.tape.size = 0 →
      s.step fuel (.run i) = (.refused .emptyTape, s)) := by
  have held : s.Holds programs := reached ▸ (Holds.start programs m).after fuel past
  -- a new session starts at the pointer where every request leaves it
  have anew : (start programs s.machine).machine = s.machine := by
    rw [start, ← held.address]
  refine ⟨?_, ?_, ?_, ?_, ?_, ?_, ?_⟩
  · intro r later
    rw [reached]
    exact replay_after fuel _ past r later
  · intro r other
    exact held.seen_step (Holds.start programs s.machine) anew.symm fuel other
  · intro i x found
    exact ⟨held.seen_run found fuel, fun address =>
      ⟨held.seen_enter found fuel address, held.seen_walk found fuel address⟩⟩
  · intro i
    rw [reached, (Holds.start programs m).isBound_after fuel past i]
    exact or_iff_right (not_isBound_start programs m i)
  · intro i r bound
    exact (held.isBound_step fuel r i).mpr (.inl bound)
  · intro i inside
    obtain ⟨p, present, -⟩ := held.program (List.getElem?_eq_getElem inside)
    refine ⟨p.isBound, ?_, ?_⟩
    · rw [step, withProgram, present]
    · rw [IsBound, present, Option.any_some]
  · intro i inside empty
    obtain ⟨p, present, -⟩ := held.program (List.getElem?_eq_getElem inside)
    rw [step, withProgram, present]
    exact if_pos empty

open Session in
/-- Input runs out inside two loops, and both stay entered; the walk after that starts outside of
them. -/
theorem aborted_walk_leaves_nothing :
    ∃ s, s = (start [⟨.fresh (.input (.loop (.loop (.input .stop) .stop) .stop)), {}⟩]
        ⟨0, .blank 1, #[1], 0, #[]⟩).after 9 [.walk 0 0] ∧
      s.interpreter.loops.length = 2 ∧ ¬ (Request.walk 0 0).AsksBound ∧
      seen (s.step 9 (.walk 0 0)) =
        seen ((start [⟨.fresh (.input (.loop (.loop (.input .stop) .stop) .stop)), {}⟩]
          s.machine).step 9 (.walk 0 0)) := by
  refine ⟨_, rfl, by decide, id, ?_⟩
  exact (requests_stand_alone 9 _ _ _ _ rfl).2.1 (.walk 0 0) id

end TapeChain
