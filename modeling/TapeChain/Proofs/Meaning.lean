import Mathlib.Logic.Function.Iterate
import Mathlib.Logic.Relation
import Mathlib.Tactic.Choose
import TapeChain.Machine.Walk
import TapeChain.Proofs.Run

/-! What a chain means, by recursion on the chain and without a stack of entered loops: `Means` says
how its runs end and `Diverges` which of its runs do not. Every chain has a meaning or diverges, a
walk ends as the meaning says whatever loops it has entered before, and it goes on forever where the
chain diverges. So walks and meanings agree. -/
namespace TapeChain

/-- How a run goes on behind an action: as `rest` says from where the action leaves the machine, if
the action lets it. -/
def Effect.Then (rest : Machine → Outcome → Prop) : Effect → Outcome → Prop
  | .done m, o => rest m o
  | .dry m, o => o = ⟨.exhausted, m⟩
  | .fault f m, o => o = ⟨.fault f, m⟩

/-- The current cell is there and is not zero. -/
def Machine.Nonzero (m : Machine) : Prop := ∃ value, m.cell? = some value ∧ value ≠ 0

/-- One round of a loop: the body is entered and runs to its end. -/
def Round (body : Machine → Outcome → Prop) (m m' : Machine) : Prop :=
  m.Nonzero ∧ body m ⟨.finished, m'⟩

/-- A loop goes round while the current cell is not zero, and then `next` follows. A body that does
not run to its end takes the loop with it. -/
inductive Repeats (body next : Machine → Outcome → Prop) : Machine → Outcome → Prop
  | leave {m o} : m.cell? = some 0 → next m o → Repeats body next m o
  | again {m m' o} : Round body m m' → Repeats body next m' o → Repeats body next m o
  | abort {m o} : m.Nonzero → body m o → o.ending ≠ .finished → Repeats body next m o
  | noCell {m} : m.cell? = none → Repeats body next m ⟨.fault (.noCell m.address), m⟩

/-- The outcome of a chain from a machine. -/
def Chain.Means : Chain → Machine → Outcome → Prop
  | .stop, m, o => o = ⟨.finished, m⟩
  | .loop body next, m, o => Repeats body.Means next.Means m o
  | .move offset next, m, o => (m.shift offset.value).Then next.Means o
  | .add delta next, m, o => (m.add delta.byte).Then next.Means o
  | .output next, m, o => m.write.Then next.Means o
  | .input next, m, o => m.read.Then next.Means o

/-- Behind an action that succeeds, `rest` has no end. -/
def Effect.Lasts (rest : Machine → Prop) : Effect → Prop
  | .done m => rest m
  | .dry _ => False
  | .fault _ _ => False

/-- The chain has no end from a machine. A loop has none if it goes round forever, or if after some
rounds its body has none or what follows it has none. -/
def Chain.Diverges : Chain → Machine → Prop
  | .stop, _ => False
  | .loop body next, m =>
    (∃ rounds : Nat → Machine, rounds 0 = m ∧ ∀ n, Round body.Means (rounds n) (rounds (n + 1))) ∨
      ∃ m', Relation.ReflTransGen (Round body.Means) m m' ∧
        (m'.Nonzero ∧ body.Diverges m' ∨ m'.cell? = some 0 ∧ next.Diverges m')
  | .move offset next, m => (m.shift offset.value).Lasts next.Diverges
  | .add delta next, m => (m.add delta.byte).Lasts next.Diverges
  | .output next, m => m.write.Lasts next.Diverges
  | .input next, m => m.read.Lasts next.Diverges

theorem Machine.cell?_cases (m : Machine) : m.cell? = none ∨ m.cell? = some 0 ∨ m.Nonzero := by
  cases h : m.cell? with
  | none => exact .inl rfl
  | some value =>
      by_cases zero : value = 0
      · exact .inr (.inl (congrArg some zero))
      · exact .inr (.inr ⟨value, h, zero⟩)

/-! ### Every chain has a meaning or diverges -/

/-- Where every step leaves room for another, steps can be taken forever. -/
theorem exists_endless {σ : Type} {r : σ → σ → Prop} {s : σ}
    (serial : ∀ t, Relation.ReflTransGen r s t → ∃ u, r t u) :
    ∃ path : Nat → σ, path 0 = s ∧ ∀ n, r (path n) (path (n + 1)) := by
  choose next leads using fun t : { t // Relation.ReflTransGen r s t } => serial t.1 t.2
  let move (t : { t // Relation.ReflTransGen r s t }) : { t // Relation.ReflTransGen r s t } :=
    ⟨next t, t.2.tail (leads t)⟩
  refine ⟨fun n => (move^[n] ⟨s, .refl⟩).1, rfl, ?_⟩
  intro n
  simp only [Function.iterate_succ_apply']
  exact leads _

theorem Effect.then_or_lasts {rest : Machine → Outcome → Prop} {lasts : Machine → Prop}
    (h : ∀ m, (∃ o, rest m o) ∨ lasts m) (e : Effect) : (∃ o, e.Then rest o) ∨ e.Lasts lasts := by
  cases e with
  | done m => exact h m
  | dry m => exact .inl ⟨_, rfl⟩
  | fault f m => exact .inl ⟨_, rfl⟩

namespace Repeats

variable {body next : Machine → Outcome → Prop} {m m' : Machine} {o : Outcome}

theorem of_rounds (rounds : Relation.ReflTransGen (Round body) m m') (h : Repeats body next m' o) :
    Repeats body next m o := by
  induction rounds using Relation.ReflTransGen.head_induction_on with
  | refl => exact h
  | head first _ ih => exact .again first ih

/-- If body and rest have an outcome wherever they are come to, a loop without one goes round
again. -/
theorem round_of_none (bodyEnds : m.Nonzero → ∃ o, body m o)
    (nextEnds : m.cell? = some 0 → ∃ o, next m o) (endless : ¬ ∃ o, Repeats body next m o) :
    ∃ m', Round body m m' := by
  rcases m.cell?_cases with missing | zero | nonzero
  · exact absurd ⟨_, .noCell missing⟩ endless
  · obtain ⟨o, ends⟩ := nextEnds zero
    exact absurd ⟨o, .leave zero ends⟩ endless
  · obtain ⟨⟨ending, m'⟩, ends⟩ := bodyEnds nonzero
    by_cases finished : ending = .finished
    · subst finished
      exact ⟨m', nonzero, ends⟩
    · exact absurd ⟨_, .abort nonzero ends finished⟩ endless

end Repeats

theorem Chain.means_or_diverges (c : Chain) (m : Machine) : (∃ o, c.Means m o) ∨ c.Diverges m := by
  induction c generalizing m with
  | stop => exact .inl ⟨_, rfl⟩
  | move offset next ih => exact Effect.then_or_lasts ih (m.shift offset.value)
  | add delta next ih => exact Effect.then_or_lasts ih (m.add delta.byte)
  | output next ih => exact Effect.then_or_lasts ih m.write
  | input next ih => exact Effect.then_or_lasts ih m.read
  | loop body next ihBody ihNext =>
      by_cases stuck : ∃ m', Relation.ReflTransGen (Round body.Means) m m' ∧
          (m'.Nonzero ∧ body.Diverges m' ∨ m'.cell? = some 0 ∧ next.Diverges m')
      · exact .inr (.inr stuck)
      by_cases repeats : ∃ o, Repeats body.Means next.Means m o
      · exact .inl repeats
      -- neither an outcome nor a part without end: only rounds are left
      refine .inr (.inl (exists_endless ?_))
      intro m' rounds
      have endless : ¬ ∃ o, Repeats body.Means next.Means m' o := by
        rintro ⟨o, ends⟩
        exact repeats ⟨o, .of_rounds rounds ends⟩
      refine Repeats.round_of_none ?_ ?_ endless
      · intro nonzero
        exact (ihBody m').resolve_right fun lasts => stuck ⟨m', rounds, .inl ⟨nonzero, lasts⟩⟩
      · intro zero
        exact (ihNext m').resolve_right fun lasts => stuck ⟨m', rounds, .inr ⟨zero, lasts⟩⟩

/-! ### A walk ends as the chain means -/

namespace Walk

variable {body next : Chain} {loops : List Entered} {m m' : Machine} {w w' : Walk} {o : Outcome}

theorem step_loop_none (h : m.cell? = none) :
    step ⟨.loop body next, loops, m⟩ = .ended ⟨.fault (.noCell m.address), m⟩ := by
  simp only [step, h]

theorem step_loop_zero (h : m.cell? = some 0) :
    step ⟨.loop body next, loops, m⟩ = .more ⟨next, loops, m⟩ := by
  simp only [step, h, if_true]

theorem step_loop_nonzero (h : m.Nonzero) :
    step ⟨.loop body next, loops, m⟩ = .more ⟨body, ⟨body, next⟩ :: loops, m⟩ := by
  obtain ⟨value, cell, nonzero⟩ := h
  simp only [step, cell, if_neg nonzero]

/-- At the end of its body a loop is tested as it was when it was come to. -/
theorem step_retest (loop : Entered) (outer : List Entered) (m : Machine) :
    step ⟨.stop, loop :: outer, m⟩ = step ⟨.loop loop.body loop.next, outer, m⟩ := rfl

theorem runFor_retest (fuel : Nat) (loop : Entered) (outer : List Entered) (m : Machine) :
    runFor step fuel ⟨.stop, loop :: outer, m⟩ =
      runFor step fuel ⟨.loop loop.body loop.next, outer, m⟩ := by
  cases fuel with
  | zero => rfl
  | succ fuel => simp only [runFor, step_retest]

/-- A walk comes to its end only at the end of the outermost chain. -/
theorem loops_of_finished (last : step w = .ended o) (finished : o.ending = .finished) :
    w.loops = [] := by
  obtain ⟨node, loops, m⟩ := w
  have acts {next : Chain} {e : Effect} (h : proceed next loops e = .ended o) : False := by
    cases e <;> cases h <;> cases finished
  have tests {body next : Chain} {outer : List Entered}
      (h : step ⟨.loop body next, outer, m⟩ = .ended o) : False := by
    rcases m.cell?_cases with missing | zero | nonzero
    · rw [step_loop_none missing] at h
      cases h
      cases finished
    · rw [step_loop_zero zero] at h
      cases h
    · rw [step_loop_nonzero nonzero] at h
      cases h
  cases node with
  | stop =>
      cases loops with
      | nil => rfl
      | cons loop outer => exact (tests ((step_retest loop outer m).symm.trans last)).elim
  | loop body next => exact (tests last).elim
  | move offset next | add delta next | output next | input next => exact (acts last).elim

/-- A walk brings an outcome about inside the loops it has entered: it comes to the end of its chain
with these loops still entered or, if the outcome is an early end, it ends altogether. -/
structure Achieves (loops : List Entered) (w : Walk) (o : Outcome) : Prop where
  arrives : o.ending = .finished → ∃ n, Steps step n w ⟨.stop, loops, o.machine⟩
  ends : o.ending ≠ .finished → Ends step w o

theorem Achieves.after {n : Nat} (path : Steps step n w w') (h : Achieves loops w' o) :
    Achieves loops w o := by
  refine ⟨?_, fun early => path.ends_iff.mpr (h.ends early)⟩
  intro finished
  obtain ⟨k, rest⟩ := h.arrives finished
  exact ⟨n + k, path.trans rest⟩

theorem Achieves.of_ended (h : step w = .ended o) (early : o.ending ≠ .finished) :
    Achieves loops w o :=
  ⟨fun finished => absurd finished early, fun _ => .of_ended h⟩

theorem Achieves.retest (h : Achieves loops ⟨.loop body next, loops, m⟩ o) :
    Achieves loops ⟨.stop, ⟨body, next⟩ :: loops, m⟩ o := by
  refine ⟨?_, ?_⟩
  · intro finished
    obtain ⟨n, path⟩ := h.arrives finished
    cases path with
    | more first rest => exact ⟨_, .more first rest⟩
  · intro early
    obtain ⟨fuel, run⟩ := h.ends early
    exact ⟨fuel, (runFor_retest ..).trans run⟩

theorem Achieves.of_then {e : Effect} (h : step w = proceed next loops e)
    (rest : ∀ m, next.Means m o → Achieves loops ⟨next, loops, m⟩ o) (ends : e.Then next.Means o) :
    Achieves loops w o := by
  cases e with
  | done m => exact .after (.one h) (rest m ends)
  | dry m =>
      cases ends
      exact .of_ended h nofun
  | fault f m =>
      cases ends
      exact .of_ended h nofun

end Walk

open Walk (Achieves step_loop_none step_loop_zero step_loop_nonzero)

/-- The induction is on the chain and, at a loop, on its rounds; the loops entered before are
arbitrary, since a body is walked with its own loop on top of them. -/
theorem Chain.Means.achieves {c : Chain} {m : Machine} {o : Outcome} (h : c.Means m o)
    (loops : List Entered) : Achieves loops ⟨c, loops, m⟩ o := by
  induction c generalizing m o loops with
  | stop =>
      cases h
      exact ⟨fun _ => ⟨0, .refl _⟩, fun early => absurd rfl early⟩
  | move offset next ih => exact .of_then rfl (fun _ ends => ih ends loops) h
  | add delta next ih => exact .of_then rfl (fun _ ends => ih ends loops) h
  | output next ih => exact .of_then rfl (fun _ ends => ih ends loops) h
  | input next ih => exact .of_then rfl (fun _ ends => ih ends loops) h
  | loop body next ihBody ihNext =>
      change Repeats body.Means next.Means m o at h
      induction h with
      | leave zero ends => exact .after (.one (step_loop_zero zero)) (ihNext ends loops)
      | again round _ ih =>
          obtain ⟨n, path⟩ := (ihBody round.2 (⟨body, next⟩ :: loops)).arrives rfl
          exact .after (.more (step_loop_nonzero round.1) path) ih.retest
      | abort nonzero ends early =>
          have inside := (ihBody ends (⟨body, next⟩ :: loops)).ends early
          refine ⟨fun finished => absurd finished early, fun _ => ?_⟩
          exact (Steps.one (step_loop_nonzero nonzero)).ends_iff.mpr inside
      | noCell missing => exact .of_ended (step_loop_none missing) nofun

theorem Chain.Means.ends {c : Chain} {m : Machine} {o : Outcome} (h : c.Means m o) :
    Ends Walk.step ⟨c, [], m⟩ o := by
  have achieves := h.achieves []
  by_cases finished : o.ending = .finished
  · obtain ⟨n, path⟩ := achieves.arrives finished
    refine path.ends_iff.mpr (.of_ended ?_)
    rw [Walk.step, ← finished]
  · exact achieves.ends finished

/-! ### Where a chain diverges, a walk goes on forever -/

/-- The run has no outcome. -/
def Endless {σ : Type} (step : σ → Progress σ) (s : σ) : Prop := ∀ o, ¬ Ends step s o

theorem endless_iff {σ : Type} {step : σ → Progress σ} {s : σ} :
    Endless step s ↔ ∀ fuel, runFor step fuel s = none := by
  constructor
  · intro endless fuel
    exact Option.eq_none_iff_forall_ne_some.mpr fun o run => endless o ⟨fuel, run⟩
  · rintro forever o ⟨fuel, run⟩
    rw [forever fuel] at run
    cases run

theorem Steps.endless {σ : Type} {step : σ → Progress σ} {n : Nat} {s t : σ}
    (path : Steps step n s t) (h : Endless step t) : Endless step s :=
  fun o ends => h o (path.ends_iff.mp ends)

namespace Walk

variable {body next : Chain} {loops : List Entered} {m m' : Machine}

/-- A round leads from the loop back to it, in one step or more. -/
theorem steps_of_round (h : Round body.Means m m') : ∃ n,
    Steps step (n + 1) ⟨.loop body next, loops, m⟩ ⟨.stop, ⟨body, next⟩ :: loops, m'⟩ := by
  obtain ⟨n, path⟩ := (h.2.achieves (⟨body, next⟩ :: loops)).arrives rfl
  exact ⟨n, .more (step_loop_nonzero h.1) path⟩

theorem endless_of_round (h : Round body.Means m m')
    (endless : Endless step ⟨.loop body next, loops, m'⟩) :
    Endless step ⟨.loop body next, loops, m⟩ := by
  obtain ⟨n, path⟩ := steps_of_round h
  refine path.endless (endless_iff.mpr ?_)
  intro fuel
  exact (runFor_retest ..).trans (endless_iff.mp endless fuel)

/-- Each round takes a step or more, so no number of steps is enough for rounds without end. -/
theorem endless_of_rounds {rounds : Nat → Machine}
    (h : ∀ n, Round body.Means (rounds n) (rounds (n + 1))) (n : Nat) :
    Endless step ⟨.loop body next, loops, rounds n⟩ := by
  rintro o ⟨fuel, run⟩
  induction fuel using Nat.strongRecOn generalizing n with
  | ind fuel ih =>
      obtain ⟨k, path⟩ : ∃ k, Steps step (k + 1) ⟨.loop body next, loops, rounds n⟩
          ⟨.stop, ⟨body, next⟩ :: loops, rounds (n + 1)⟩ := steps_of_round (h n)
      obtain ⟨rest, rfl⟩ := Nat.exists_eq_add_of_le (path.le_of_runFor run)
      rw [path.runFor rest, runFor_retest] at run
      exact ih rest (by omega) (n + 1) run

theorem endless_of_lasts {e : Effect} {w : Walk} (h : step w = proceed next loops e)
    (rest : ∀ m, next.Diverges m → Endless step ⟨next, loops, m⟩) (lasts : e.Lasts next.Diverges) :
    Endless step w := by
  cases e with
  | done m => exact (Steps.one h).endless (rest m lasts)
  | dry m => exact lasts.elim
  | fault f m => exact lasts.elim

end Walk

theorem Chain.Diverges.endless {c : Chain} {m : Machine} (h : c.Diverges m) (loops : List Entered) :
    Endless Walk.step ⟨c, loops, m⟩ := by
  induction c generalizing m loops with
  | stop => exact h.elim
  | move offset next ih => exact Walk.endless_of_lasts rfl (fun _ lasts => ih lasts loops) h
  | add delta next ih => exact Walk.endless_of_lasts rfl (fun _ lasts => ih lasts loops) h
  | output next ih => exact Walk.endless_of_lasts rfl (fun _ lasts => ih lasts loops) h
  | input next ih => exact Walk.endless_of_lasts rfl (fun _ lasts => ih lasts loops) h
  | loop body next ihBody ihNext =>
      rcases h with ⟨rounds, rfl, round⟩ | ⟨m', rounds, last⟩
      · exact Walk.endless_of_rounds round 0
      · induction rounds using Relation.ReflTransGen.head_induction_on with
        | refl =>
            rcases last with ⟨nonzero, lasts⟩ | ⟨zero, lasts⟩
            · exact (Steps.one (step_loop_nonzero nonzero)).endless (ihBody lasts _)
            · exact (Steps.one (step_loop_zero zero)).endless (ihNext lasts loops)
        | head first _ ih => exact Walk.endless_of_round first ih

/-- The walk of a chain ends, faults or goes on forever exactly as the chain means by recursion,
from every machine: any pointer, any tape and any input. Where it comes to its end, no loop is left
entered. -/
theorem walk_agrees_with_meaning (c : Chain) (m : Machine) :
    (∀ o, (∃ fuel, c.walk fuel m = some o) ↔ c.Means m o) ∧
      ((∀ fuel, c.walk fuel m = none) ↔ c.Diverges m) ∧
      ∀ n w o, Steps Walk.step n ⟨c, [], m⟩ w → w.step = .ended o → o.ending = .finished →
        w.loops = [] := by
  refine ⟨?_, ?_, ?_⟩
  · intro o
    refine ⟨?_, Chain.Means.ends⟩
    intro ends
    rcases c.means_or_diverges m with ⟨o', means⟩ | diverges
    · rw [Ends.unique ends means.ends]
      exact means
    · exact absurd ends (diverges.endless [] o)
  · constructor
    · intro forever
      refine (c.means_or_diverges m).resolve_left ?_
      rintro ⟨o, means⟩
      exact endless_iff.mpr forever o means.ends
    · intro diverges
      exact endless_iff.mp (diverges.endless [])
  · intro n w o _ last finished
    exact Walk.loops_of_finished last finished

/-- A loop that reads until a zero, from a cell counted from the end of the tape, and a loop that
does nothing. -/
theorem read_loop_agrees_with_meaning :
    let c : Chain := .loop (.input .stop) .stop
    let m : Machine := ⟨-1, ⟨#[1]⟩, #[7, 0], 0, #[]⟩
    let o : Outcome := ⟨.finished, ⟨-1, ⟨#[0]⟩, #[7, 0], 2, #[]⟩⟩
    let idle : Chain := .loop .stop .stop
    ((∃ fuel, c.walk fuel m = some o) ∧ c.Means m o) ∧
      (idle.Diverges m ∧ ∀ fuel, idle.walk fuel m = none) ∧
      ∃ n w, Steps Walk.step n ⟨c, [], m⟩ w ∧ w.step = .ended o ∧ o.ending = .finished ∧
        w.loops = [] := by
  intro c m o idle
  obtain ⟨means, -, closed⟩ := walk_agrees_with_meaning c m
  have ends : ∃ fuel, c.walk fuel m = some o := ⟨6, by decide⟩
  have nonzero : m.Nonzero := ⟨1, by decide, by decide⟩
  have diverges : idle.Diverges m := .inl ⟨fun _ => m, rfl, fun _ => ⟨nonzero, rfl⟩⟩
  obtain ⟨n, w, path, last⟩ := Ends.last ends
  exact ⟨⟨ends, (means o).mp ends⟩, ⟨diverges, (walk_agrees_with_meaning idle m).2.1.mpr diverges⟩,
    n, w, path, last, rfl, closed n w o path last rfl⟩

end TapeChain
