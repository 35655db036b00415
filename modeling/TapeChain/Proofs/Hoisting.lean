import TapeChain.Proofs.Measure
import TapeChain.Proofs.Run
import TapeChain.Proofs.Sharing
import TapeChain.Routine.Emit

/-! Hoisting is invisible. The routine of a chain, with its helpers and its guard, ends exactly as the
statements of the same chain do when every loop stands in place: on every machine, whatever the
budget and however the nodes are shared. -/
namespace TapeChain

/-- The statements of a chain with every loop in place. -/
def Chain.code : Chain → Code
  | .stop => .done
  | .loop body next => .loop body.code next.code
  | .move offset next => .move offset.value next.code
  | .add delta next => .bump delta.byte next.code
  | .output next => .write next.code
  | .input next => .read .leave next.code

def Chain.plain (c : Chain) : Routine := { helpers := [], guarded := false, body := c.code }

/-- The second code is the first one with every call replaced by the loop that is called. A read
leaves or signals as `exit` says; a call is made under the guard only, and into a helper that
signals. -/
inductive Inlines (helpers : List Helper) (guarded : Bool) : DryExit → Code → Code → Prop
  | done {exit} : Inlines helpers guarded exit .done .done
  | forward {exit rest rest'} (cells : Nat) : Inlines helpers guarded exit rest rest' →
      Inlines helpers guarded exit (.forward cells rest) (.forward cells rest')
  | back {exit rest rest'} (cells : Nat) : Inlines helpers guarded exit rest rest' →
      Inlines helpers guarded exit (.back cells rest) (.back cells rest')
  | add {exit rest rest'} (delta : UInt8) : Inlines helpers guarded exit rest rest' →
      Inlines helpers guarded exit (.add delta rest) (.add delta rest')
  | write {exit rest rest'} : Inlines helpers guarded exit rest rest' →
      Inlines helpers guarded exit (.write rest) (.write rest')
  | read {exit rest rest'} : Inlines helpers guarded exit rest rest' →
      Inlines helpers guarded exit (.read exit rest) (.read .leave rest')
  | loop {exit body body' rest rest'} : Inlines helpers guarded exit body body' →
      Inlines helpers guarded exit rest rest' →
      Inlines helpers guarded exit (.loop body rest) (.loop body' rest')
  | call {exit number body body' rest rest'} : guarded = true → ⟨number, body⟩ ∈ helpers →
      Inlines helpers guarded .signal body body' → Inlines helpers guarded exit rest rest' →
      Inlines helpers guarded exit (.call number rest) (.loop body' rest')

namespace Inlines

variable {helpers helpers' : List Helper} {guarded : Bool} {exit : DryExit} {code code' : Code}

theorem mono (h : Inlines helpers guarded exit code code') (sub : helpers ⊆ helpers') :
    Inlines helpers' guarded exit code code' := by
  induction h with
  | done => exact .done
  | forward cells _ ih => exact .forward cells ih
  | back cells _ ih => exact .back cells ih
  | add delta _ ih => exact .add delta ih
  | write _ ih => exact .write ih
  | read _ ih => exact .read ih
  | loop _ _ ihBody ihRest => exact .loop ihBody ihRest
  | call under found _ _ ihBody ihRest => exact .call under (sub found) ihBody ihRest

theorem move (h : Inlines helpers guarded exit code code') (offset : Int) :
    Inlines helpers guarded exit (.move offset code) (.move offset code') := by
  unfold Code.move
  split
  · exact .forward _ h
  · split
    · exact .back _ h
    · exact h

theorem bump (h : Inlines helpers guarded exit code code') (delta : UInt8) :
    Inlines helpers guarded exit (.bump delta code) (.bump delta code') := by
  unfold Code.bump
  split
  · exact h
  · exact .add _ h

end Inlines

/-! ### What emission defines -/

/-- Helpers, the latest first, each of which calls earlier ones only. -/
inductive Ordered (guarded : Bool) : List Helper → Prop
  | nil : Ordered guarded []
  | cons {helper earlier plain} : Inlines earlier guarded .signal helper.body plain →
      Ordered guarded earlier → Ordered guarded (helper :: earlier)

/-- The helpers so far, seen from inside the loops whose tags are `opened`. Every numbered loop is
still open or has its definition, which is its body with calls in it. -/
structure Hoisted.Sound (bodyOf : Nat → Chain) (guarded : Bool) (opened : List Nat) (h : Hoisted) :
    Prop where
  bound : ∀ helper ∈ h.defined, helper.number < h.numbers.size
  distinct : (h.defined.map Helper.number).Nodup
  defined : ∀ {tag number : Nat}, h.numbers[tag]? = some number → tag ∈ opened ∨
    ∃ body, ⟨number, body⟩ ∈ h.defined ∧
      Inlines h.defined guarded .signal body (bodyOf tag).code
  used : ∀ {number : Nat}, number < h.numbers.size → ∃ tag : Nat, h.numbers[tag]? = some number
  ordered : Ordered guarded h.defined

/-- Numbers and definitions are only added, definitions under numbers that were free before. -/
structure Hoisted.Grows (h later : Hoisted) : Prop where
  size : h.numbers.size ≤ later.numbers.size
  names : ∀ {tag number : Nat}, h.numbers[tag]? = some number → later.numbers[tag]? = some number
  keeps : h.defined ⊆ later.defined
  added : ∀ helper ∈ later.defined, helper ∈ h.defined ∨ h.numbers.size ≤ helper.number

theorem Hoisted.Grows.refl (h : Hoisted) : h.Grows h :=
  ⟨Nat.le_refl _, fun found => found, List.Subset.refl _, fun _ hx => .inl hx⟩

theorem Hoisted.Grows.trans {h middle later : Hoisted} (first : h.Grows middle)
    (rest : middle.Grows later) : h.Grows later := by
  refine ⟨Nat.le_trans first.size rest.size, fun found => rest.names (first.names found),
    List.Subset.trans first.keeps rest.keeps, ?_⟩
  intro helper hx
  rcases rest.added helper hx with hx | hx
  · exact first.added helper hx
  · exact .inr (Nat.le_trans first.size hx)

/-- The outcome of emitting a chain: its statements inline to the plain ones, and the helpers stay
sound. -/
structure Emits (bodyOf : Nat → Chain) (guarded : Bool) (opened : List Nat) (exit : DryExit)
    (before : Hoisted) (c : Chain) (result : Code × Hoisted) : Prop where
  sound : result.2.Sound bodyOf guarded opened
  grows : before.Grows result.2
  inlines : Inlines result.2.defined guarded exit result.1 c.code

/-- The state inside a loop that is met for the first time: the loop has the next number. -/
def Hoisted.enter (h : Hoisted) (tag : Nat) : Hoisted :=
  { h with numbers := h.numbers.insert tag h.numbers.size }

/-- The state after such a loop, with its definition. -/
def Hoisted.define (h : Hoisted) (number : Nat) (body : Code) : Hoisted :=
  { h with defined := ⟨number, body⟩ :: h.defined }

section
variable {bodyOf : Nat → Chain} {guarded : Bool} {opened : List Nat} {h : Hoisted} {tag : Nat}

theorem Hoisted.enter_size (new : h.numbers[tag]? = none) :
    (h.enter tag).numbers.size = h.numbers.size + 1 := by
  have absent : tag ∉ h.numbers := by
    rw [Std.HashMap.mem_iff_isSome_getElem?, new]
    exact Bool.false_ne_true
  rw [enter, Std.HashMap.size_insert, if_neg absent]

theorem Hoisted.enter_numbers (h : Hoisted) (tag tag' : Nat) :
    (h.enter tag).numbers[tag']? = if tag = tag' then some h.numbers.size else h.numbers[tag']? := by
  simp only [enter, Std.HashMap.getElem?_insert, beq_iff_eq]

theorem Hoisted.Sound.enter (sound : h.Sound bodyOf guarded opened) (new : h.numbers[tag]? = none) :
    (h.enter tag).Sound bodyOf guarded (tag :: opened) := by
  refine ⟨?_, sound.distinct, ?_, ?_, sound.ordered⟩
  · intro helper hx
    rw [Hoisted.enter_size new]
    exact Nat.lt_succ_of_lt (sound.bound helper hx)
  · intro tag' number found
    rw [Hoisted.enter_numbers] at found
    split at found
    · next same => exact .inl (same ▸ List.mem_cons_self)
    · exact (sound.defined found).imp_left (List.mem_cons_of_mem _)
  · intro number below
    rw [Hoisted.enter_size new] at below
    rcases Nat.lt_succ_iff_lt_or_eq.mp below with old | rfl
    · obtain ⟨tag', found⟩ := sound.used old
      have other : tag ≠ tag' := by
        rintro rfl
        rw [new] at found
        cases found
      exact ⟨tag', by rw [Hoisted.enter_numbers, if_neg other]; exact found⟩
    · exact ⟨tag, by rw [Hoisted.enter_numbers, if_pos rfl]⟩

/-- Leaving a loop with its definition at hand; `middle` is the state after its body. -/
theorem Hoisted.Sound.define {middle : Hoisted} {body : Code} (sound : h.Sound bodyOf guarded opened)
    (new : h.numbers[tag]? = none) (grows : (h.enter tag).Grows middle)
    (inside : middle.Sound bodyOf guarded (tag :: opened))
    (inlines : Inlines middle.defined guarded .signal body (bodyOf tag).code) :
    (middle.define h.numbers.size body).Sound bodyOf guarded opened := by
  have size := Hoisted.enter_size new
  have sub : middle.defined ⊆ (middle.define h.numbers.size body).defined :=
    List.subset_cons_self _ _
  refine ⟨?_, ?_, ?_, inside.used, .cons inlines inside.ordered⟩
  · intro helper hx
    rcases List.mem_cons.mp hx with rfl | hx
    · exact Nat.lt_of_lt_of_le (size ▸ Nat.lt_succ_self _) grows.size
    · exact inside.bound helper hx
  · simp only [Hoisted.define, List.map_cons, List.nodup_cons]
    refine ⟨?_, inside.distinct⟩
    intro hx
    obtain ⟨helper, hh, same⟩ := List.mem_map.mp hx
    rcases grows.added helper hh with old | late
    · exact absurd (sound.bound helper old) (by omega)
    · omega
  · intro tag' number found
    rcases inside.defined found with hx | ⟨inner, hx, hi⟩
    · rcases List.mem_cons.mp hx with rfl | hx
      · have known : middle.numbers[tag']? = some h.numbers.size :=
          grows.names (by rw [Hoisted.enter_numbers, if_pos rfl])
        rw [Option.some.inj (found.symm.trans known)]
        exact .inr ⟨body, List.mem_cons_self, inlines.mono sub⟩
      · exact .inl hx
    · exact .inr ⟨inner, sub hx, hi.mono sub⟩

theorem Hoisted.Grows.define {middle : Hoisted} (new : h.numbers[tag]? = none)
    (grows : (h.enter tag).Grows middle) (body : Code) :
    h.Grows (middle.define h.numbers.size body) := by
  have size := Hoisted.enter_size new
  refine ⟨?_, ?_, fun _ hx => List.mem_cons_of_mem _ (grows.keeps hx), ?_⟩
  · exact Nat.le_trans (size ▸ Nat.le_succ _) grows.size
  · intro tag' number found
    have other : tag ≠ tag' := by
      rintro rfl
      rw [new] at found
      cases found
    exact grows.names (by rw [Hoisted.enter_numbers, if_neg other]; exact found)
  · intro helper hx
    rcases List.mem_cons.mp hx with rfl | hx
    · exact .inr (Nat.le_refl _)
    · exact (grows.added helper hx).imp_right fun late => by omega

end

namespace Linked

/-- The chain at every loop's tag is the body of that loop. -/
def BodiesAre (bodyOf : Nat → Chain) (l : Linked) : Prop :=
  ∀ {tag body next}, .loop tag body next ∈ l.parts → bodyOf tag = body.chain

theorem BodiesAre.child {bodyOf : Nat → Chain} {a l : Linked} (h : l.BodiesAre bodyOf)
    (ha : a ∈ l.children) : a.BodiesAre bodyOf :=
  fun found => h (parts_subset_of_child ha found)

/-- Emission by cases. `room` says that a loop is hoisted under the guard only; `larger` says that the
chain lies inside every open loop. -/
theorem emit_emits {bodyOf : Nat → Chain} {guarded : Bool} {budget : Nat} (l : Linked)
    (bodies : l.BodiesAre bodyOf) {depth : Nat} {exit : DryExit} {hoisted : Hoisted}
    {opened : List Nat} (room : guarded = true ∨ depth + l.chain.nesting ≤ budget)
    (sound : hoisted.Sound bodyOf guarded opened)
    (larger : ∀ t ∈ opened, l.chain.nodes ≤ (bodyOf t).nodes) :
    Emits bodyOf guarded opened exit hoisted l.chain (l.emit budget depth exit hoisted) := by
  induction l generalizing depth exit hoisted opened with
  | stop tag => exact ⟨sound, .refl hoisted, .done⟩
  | move tag offset next ih =>
      have h : Emits bodyOf guarded opened exit hoisted next.chain
          (next.emit budget depth exit hoisted) :=
        ih (bodies.child List.mem_cons_self) room sound
          (fun t ht => Nat.le_of_succ_le (larger t ht))
      exact ⟨h.sound, h.grows, h.inlines.move offset.value⟩
  | add tag delta next ih =>
      have h : Emits bodyOf guarded opened exit hoisted next.chain
          (next.emit budget depth exit hoisted) :=
        ih (bodies.child List.mem_cons_self) room sound
          (fun t ht => Nat.le_of_succ_le (larger t ht))
      exact ⟨h.sound, h.grows, h.inlines.bump delta.byte⟩
  | output tag next ih =>
      have h : Emits bodyOf guarded opened exit hoisted next.chain
          (next.emit budget depth exit hoisted) :=
        ih (bodies.child List.mem_cons_self) room sound
          (fun t ht => Nat.le_of_succ_le (larger t ht))
      exact ⟨h.sound, h.grows, h.inlines.write⟩
  | input tag next ih =>
      have h : Emits bodyOf guarded opened exit hoisted next.chain
          (next.emit budget depth exit hoisted) :=
        ih (bodies.child List.mem_cons_self) room sound
          (fun t ht => Nat.le_of_succ_le (larger t ht))
      exact ⟨h.sound, h.grows, h.inlines.read⟩
  | loop tag body next ihBody ihNext =>
      have inBody : body.BodiesAre bodyOf := bodies.child List.mem_cons_self
      have inNext : next.BodiesAre bodyOf :=
        bodies.child (List.mem_cons_of_mem _ List.mem_cons_self)
      simp only [chain, Chain.nodes, Chain.nesting] at larger room
      have emitNext : ∀ {h : Hoisted}, h.Sound bodyOf guarded opened →
          Emits bodyOf guarded opened exit h next.chain (next.emit budget depth exit h) :=
        fun sound => ihNext inNext (room.imp_right fun h => by omega) sound
          (fun t ht => Nat.le_trans (by omega) (larger t ht))
      rw [emit]
      split
      · next inline =>
          have hb : Emits bodyOf guarded opened exit hoisted body.chain
              (body.emit budget (depth + 1) exit hoisted) :=
            ihBody inBody (room.imp_right fun h => by omega) sound
              (fun t ht => Nat.le_trans (by omega) (larger t ht))
          have hn := emitNext hb.sound
          exact ⟨hn.sound, hb.grows.trans hn.grows, .loop (hb.inlines.mono hn.grows.keeps) hn.inlines⟩
      · next deep =>
          have under : guarded = true := room.resolve_right fun h => by omega
          have named : bodyOf tag = body.chain := bodies (Linked.self_mem_parts _)
          split
          · next number found =>
              -- An equal loop was hoisted before, and it is not one that is still open.
              have closed : tag ∉ opened := by
                intro ht
                have size := larger tag ht
                rw [named] at size
                omega
              obtain ⟨inner, hd, hi⟩ := (sound.defined found).resolve_left closed
              rw [named] at hi
              have hn := emitNext sound
              exact ⟨hn.sound, hn.grows,
                .call under (hn.grows.keeps hd) (hi.mono hn.grows.keeps) hn.inlines⟩
          · next new =>
              have bodyLarger : ∀ t ∈ tag :: opened, body.chain.nodes ≤ (bodyOf t).nodes := by
                intro t ht
                rcases List.mem_cons.mp ht with rfl | ht
                · exact Nat.le_of_eq (congrArg Chain.nodes named.symm)
                · exact Nat.le_trans (by omega) (larger t ht)
              have hb : Emits bodyOf guarded (tag :: opened) .signal (hoisted.enter tag) body.chain
                  (body.emit budget 1 .signal (hoisted.enter tag)) :=
                ihBody inBody (.inl under) (sound.enter new) bodyLarger
              have sound' := sound.define new hb.grows hb.sound (named ▸ hb.inlines)
              have grows' := hb.grows.define new (body.emit budget 1 .signal (hoisted.enter tag)).1
              have hn := emitNext sound'
              refine ⟨hn.sound, grows'.trans hn.grows, ?_⟩
              exact .call under (hn.grows.keeps List.mem_cons_self)
                (hb.inlines.mono fun _ hx => hn.grows.keeps (List.mem_cons_of_mem _ hx)) hn.inlines

def bodyAt (l : Linked) (tag : Nat) : Chain :=
  match l.parts.find? fun a => a.tag = tag with
  | some (.loop _ body _) => body.chain
  | _ => .stop

theorem Coherent.bodiesAre {l : Linked} (h : l.Coherent) : l.BodiesAre l.bodyAt := by
  intro tag body next found
  cases hf : l.parts.find? fun a => a.tag = tag with
  | none => exact absurd (List.find?_eq_none.mp hf _ found) (by simp [Linked.tag])
  | some a =>
      have same : a.tag = tag := by simpa using List.find?_some hf
      have whole : a = .loop tag body next := h a (List.mem_of_find?_eq_some hf) _ found same
      simp only [bodyAt, hf, whole]

end Linked

/-- A routine whose statements, calls inlined, are those of a chain. -/
structure Routine.Serves (r : Routine) (c : Chain) : Prop where
  distinct : (r.helpers.map Helper.number).Nodup
  inlines : Inlines r.helpers r.guarded .leave r.body c.code

/-- Loops beyond this many become helpers; the guard around the main routine takes one level. -/
def Linked.budget (l : Linked) (config : Config) : Nat :=
  if l.needsHelpers config then config.inlineDepth - 1 else config.inlineDepth

theorem Linked.emit_routine {l : Linked} (coherent : l.Coherent) (config : Config) :
    Emits l.bodyAt (l.needsHelpers config) [] .leave .empty l.chain
      (l.emit (l.budget config) 0 .leave .empty) := by
  have room : l.needsHelpers config = true ∨ 0 + l.chain.nesting ≤ l.budget config := by
    cases hg : l.needsHelpers config with
    | true => exact .inl rfl
    | false =>
        have shallow := hg
        simp only [needsHelpers, Chain.depth_eq_nesting, decide_eq_false_iff_not] at shallow
        rw [budget, hg]
        exact .inr (by simpa using shallow)
  have start : Hoisted.empty.Sound l.bodyAt (l.needsHelpers config) [] := by
    refine ⟨fun _ hx => absurd hx List.not_mem_nil, List.nodup_nil, ?_, ?_, .nil⟩
    · intro tag number found
      simp only [Hoisted.empty, Std.HashMap.getElem?_empty, reduceCtorEq] at found
    · intro number below
      simp only [Hoisted.empty, Std.HashMap.size_empty, Nat.not_lt_zero] at below
  exact l.emit_emits coherent.bodiesAre room start (fun _ ht => absurd ht List.not_mem_nil)

theorem Linked.routine_serves {l : Linked} (coherent : l.Coherent) (config : Config) :
    (l.routine config).Serves l.chain := by
  have h := l.emit_routine coherent config
  refine ⟨?_, h.inlines.mono fun _ hx => List.mem_reverse.mpr hx⟩
  simp only [routine, List.map_reverse, List.nodup_reverse]
  exact h.sound.distinct

theorem Routine.Serves.helper? {r : Routine} {c : Chain} (h : r.Serves c) {number : Nat}
    {body : Code} (defined : ⟨number, body⟩ ∈ r.helpers) :
    r.helper? number = some ⟨number, body⟩ := by
  cases hf : r.helper? number with
  | none => exact absurd (List.find?_eq_none.mp hf _ defined) (by simp)
  | some helper =>
      have same : helper.number = number := by simpa using List.find?_some hf
      rw [List.inj_on_of_nodup_map h.distinct (List.mem_of_find?_eq_some hf) defined same]

/-! ### The routine follows the plain statements -/

/-- Stacks of the two runs. A helper that is running shows as its loop and the way back to its caller
on the one side, as the loop in place on the other. -/
inductive Framed (r : Routine) : DryExit → List Pending → List Pending → Prop
  | nil : Framed r .leave [] []
  | loop {exit body body' rest rest' outer outer'} :
      Inlines r.helpers r.guarded exit body body' → Inlines r.helpers r.guarded exit rest rest' →
      Framed r exit outer outer' →
      Framed r exit (.loop body rest :: outer) (.loop body' rest' :: outer')
  | call {exit body body' rest rest' outer outer'} : r.guarded = true →
      Inlines r.helpers r.guarded .signal body body' →
      Inlines r.helpers r.guarded exit rest rest' → Framed r exit outer outer' →
      Framed r .signal (.loop body .done :: .call rest :: outer) (.loop body' rest' :: outer')

/-- States of the two runs: at matching statements, or about to test the cell for a helper's loop. -/
inductive Aligned (r : Routine) : Activity → Activity → Prop
  | level {exit code code' pending pending' m} : Inlines r.helpers r.guarded exit code code' →
      Framed r exit pending pending' → Aligned r ⟨code, pending, m⟩ ⟨code', pending', m⟩
  | helper {exit body body' rest rest' outer outer' m} : r.guarded = true →
      Inlines r.helpers r.guarded .signal body body' →
      Inlines r.helpers r.guarded exit rest rest' → Framed r exit outer outer' →
      Aligned r ⟨.loop body .done, .call rest :: outer, m⟩ ⟨.loop body' rest', outer', m⟩

theorem Framed.guarded_of_signal {r : Routine} {pending pending' : List Pending}
    (h : Framed r .signal pending pending') : r.guarded = true := by
  generalize hx : DryExit.signal = exit at h
  induction h with
  | nil => cases hx
  | loop _ _ _ ih => exact ih hx
  | call under _ _ _ _ => exact under

theorem Framed.leave_left {r : Routine} {pending pending' : List Pending}
    (h : Framed r .leave pending pending') (m : Machine) :
    Activity.leave m pending = .ended ⟨.exhausted, m⟩ := by
  generalize hx : DryExit.leave = exit at h
  induction h with
  | nil => rfl
  | loop _ _ _ ih => exact ih hx
  | call _ _ _ _ _ => cases hx

theorem Framed.leave_right {r : Routine} {exit : DryExit} {pending pending' : List Pending}
    (h : Framed r exit pending pending') (m : Machine) :
    Activity.leave m pending' = .ended ⟨.exhausted, m⟩ := by
  induction h with
  | nil => rfl
  | loop _ _ _ ih => exact ih
  | call _ _ _ _ ih => exact ih

theorem alike_proceed {r : Routine} {rest rest' : Code} {pending pending' : List Pending}
    (cont : ∀ m, Aligned r ⟨rest, pending, m⟩ ⟨rest', pending', m⟩) (e : Effect) :
    Alike (Aligned r) (Activity.proceed rest pending e) (Activity.proceed rest' pending' e) := by
  cases e with
  | done m => exact .more (cont m)
  | dry m => exact .ended _
  | fault f m => exact .ended _

/-- A loop in place and a helper's loop test the same cell. -/
theorem Aligned.test_helper {r : Routine} {exit : DryExit} {body body' rest rest' : Code}
    {outer outer' : List Pending} (under : r.guarded = true)
    (hb : Inlines r.helpers r.guarded .signal body body')
    (hr : Inlines r.helpers r.guarded exit rest rest') (hf : Framed r exit outer outer') (m : Machine)
    (plain : Routine) :
    Answers (Activity.step r) (Aligned r) (fun _ => 0)
      ⟨.loop body .done, .call rest :: outer, m⟩ ⟨.loop body' rest', outer', m⟩
      (Activity.step plain ⟨.loop body' rest', outer', m⟩) := by
  cases hc : m.cell? with
  | none =>
      apply Answers.one
      simp only [Activity.step, hc]
      exact .ended _
  | some value =>
      by_cases zero : value = 0
      · -- The helper returns to its caller: two steps where the loop in place takes one.
        have path : Steps (Activity.step r) 2 ⟨.loop body .done, .call rest :: outer, m⟩
            ⟨rest, outer, m⟩ := by
          refine .two (t := ⟨.done, .call rest :: outer, m⟩) ?_ rfl
          simp only [Activity.step, hc, if_pos zero]
        simp only [Activity.step, hc, if_pos zero]
        exact .inl ⟨1, _, path, .level hr hf⟩
      · apply Answers.one
        simp only [Activity.step, hc, if_neg zero]
        exact .more (.level hb (.call under hb hr hf))

theorem Routine.Serves.follows {r : Routine} {c : Chain} (h : r.Serves c) (plain : Routine) :
    Follows (Activity.step r) (Activity.step plain) (Aligned r) (fun _ => 0) := by
  intro s t aligned
  cases aligned with
  | helper under hb hr hf => exact Aligned.test_helper under hb hr hf _ plain
  | @level exit code code' pending pending' m inlines framed =>
      cases inlines with
      | done =>
          apply Answers.one
          cases framed with
          | nil => exact .ended _
          | loop hb hr hf => exact .more (.level (.loop hb hr) hf)
          | call under hb hr hf => exact .more (.helper under hb hr hf)
      | forward cells hr => exact .one (alike_proceed (fun m => .level hr framed) _)
      | back cells hr => exact .one (alike_proceed (fun m => .level hr framed) _)
      | add delta hr => exact .one (alike_proceed (fun m => .level hr framed) _)
      | write hr => exact .one (alike_proceed (fun m => .level hr framed) _)
      | read hr =>
          apply Answers.one
          simp only [Activity.step]
          cases hm : m.read with
          | done m' => exact .more (.level hr framed)
          | fault f m' => exact .ended _
          | dry m' =>
              simp only [framed.leave_right]
              cases exit with
              | leave =>
                  rw [framed.leave_left]
                  exact .ended _
              | signal =>
                  simp only [Activity.halt, framed.guarded_of_signal, if_true]
                  exact .ended _
      | loop hb hr =>
          apply Answers.one
          simp only [Activity.step]
          cases hc : m.cell? with
          | none => exact .ended _
          | some value =>
              by_cases zero : value = 0
              · simp only [if_pos zero]
                exact .more (.level hr framed)
              · simp only [if_neg zero]
                exact .more (.level hb (.loop hb hr framed))
      | @call _ number body body' rest rest' under defined hb hr =>
          have enter : Activity.step r ⟨.call number rest, pending, m⟩ =
              .more ⟨.loop body .done, .call rest :: pending, m⟩ := by
            simp only [Activity.step, h.helper? defined]
          exact .after (.one enter) (Aligned.test_helper under hb hr framed m plain)

/-- Hoisting is invisible: helpers, guard and sharing change no outcome, from any pointer on. -/
theorem Linked.routine_ends_iff_plain {l : Linked} (coherent : l.Coherent) (config : Config)
    (m : Machine) (o : Outcome) :
    (∃ fuel, (l.routine config).run fuel m = some o) ↔ ∃ fuel, l.chain.plain.run fuel m = some o :=
  have serves := l.routine_serves coherent config
  (serves.follows l.chain.plain).ends_iff (.level serves.inlines .nil)

end TapeChain
