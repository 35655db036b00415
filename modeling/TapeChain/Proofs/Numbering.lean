import TapeChain.Proofs.Layout

/-! The numbers of the helpers. Emission gives every hoisted loop a number when its tag is first met,
and looks the tag up afterwards; but once all numbers are known, the statements and the helpers are
those of the chain with its loops replaced by calls under these numbers, each occurrence for
itself. -/
namespace TapeChain

namespace Code

theorem calls_move (offset : Int) (rest : Code) : (Code.move offset rest).calls = rest.calls := by
  unfold Code.move
  split
  · rfl
  · split
    · rfl
    · rfl

theorem calls_bump (delta : UInt8) (rest : Code) : (Code.bump delta rest).calls = rest.calls := by
  unfold Code.bump
  split
  · rfl
  · rfl

theorem move_inj {offset : Int} {rest rest' : Code} (h : Code.move offset rest = .move offset rest') :
    rest = rest' := by
  unfold Code.move at h
  split at h
  · exact (Code.forward.inj h).2
  · split at h
    · exact (Code.back.inj h).2
    · exact h

theorem bump_inj {delta : UInt8} {rest rest' : Code} (h : Code.bump delta rest = .bump delta rest') :
    rest = rest' := by
  unfold Code.bump at h
  split at h
  · exact h
  · exact (Code.add.inj h).2

end Code

namespace Linked

/-- The loops that become helpers, each occurrence for itself and in the order of the text: those
that stand inside `budget` loops of their routine. What is inside such a loop stands in a routine of
its own, one loop deep. -/
def hoists (budget : Nat) (depth : Nat) : Linked → List Linked
  | .stop _ => []
  | .move _ _ next => next.hoists budget depth
  | .add _ _ next => next.hoists budget depth
  | .output _ next => next.hoists budget depth
  | .input _ next => next.hoists budget depth
  | .loop tag body next =>
    if depth < budget then body.hoists budget (depth + 1) ++ next.hoists budget depth
    else .loop tag body next :: (body.hoists budget 1 ++ next.hoists budget depth)

/-- The statements of a chain when the helpers have the given numbers. -/
def numbered (budget : Nat) (number : Nat → Nat) (depth : Nat) (exit : DryExit) : Linked → Code
  | .stop _ => .done
  | .move _ offset next => .move offset.value (next.numbered budget number depth exit)
  | .add _ delta next => .bump delta.byte (next.numbered budget number depth exit)
  | .output _ next => .write (next.numbered budget number depth exit)
  | .input _ next => .read exit (next.numbered budget number depth exit)
  | .loop tag body next =>
    if depth < budget then
      .loop (body.numbered budget number (depth + 1) exit) (next.numbered budget number depth exit)
    else .call (number tag) (next.numbered budget number depth exit)

section
variable {budget depth : Nat} {exit : DryExit} {hoisted : Hoisted} {tag : Nat} {body next : Linked}

theorem emit_inline (inline : depth < budget) :
    (loop tag body next).emit budget depth exit hoisted =
      (.loop (body.emit budget (depth + 1) exit hoisted).1
        (next.emit budget depth exit (body.emit budget (depth + 1) exit hoisted).2).1,
        (next.emit budget depth exit (body.emit budget (depth + 1) exit hoisted).2).2) := by
  rw [emit, if_pos inline]

theorem emit_known (deep : ¬ depth < budget) {number : Nat}
    (found : hoisted.numbers[tag]? = some number) :
    (loop tag body next).emit budget depth exit hoisted =
      (.call number (next.emit budget depth exit hoisted).1,
        (next.emit budget depth exit hoisted).2) := by
  simp only [emit, if_neg deep, found]

/-- The state behind a loop that is met for the first time. -/
def hoistNew (budget : Nat) (hoisted : Hoisted) (tag : Nat) (body : Linked) : Hoisted :=
  (body.emit budget 1 .signal (hoisted.enter tag)).2.define hoisted.numbers.size
    (body.emit budget 1 .signal (hoisted.enter tag)).1

theorem emit_new (deep : ¬ depth < budget) (new : hoisted.numbers[tag]? = none) :
    (loop tag body next).emit budget depth exit hoisted =
      (.call hoisted.numbers.size (next.emit budget depth exit (hoistNew budget hoisted tag body)).1,
        (next.emit budget depth exit (hoistNew budget hoisted tag body)).2) := by
  simp only [emit, if_neg deep, new]
  rfl

end

/-- Numbers once given are kept. -/
theorem emit_keeps (budget : Nat) (l : Linked) (depth : Nat) (exit : DryExit) (hoisted : Hoisted)
    {tag number : Nat} (found : hoisted.numbers[tag]? = some number) :
    (l.emit budget depth exit hoisted).2.numbers[tag]? = some number := by
  induction l generalizing depth exit hoisted with
  | stop t => exact found
  | move t offset next ih => exact ih depth exit hoisted found
  | add t delta next ih => exact ih depth exit hoisted found
  | output t next ih => exact ih depth exit hoisted found
  | input t next ih => exact ih depth exit hoisted found
  | loop t body next ihBody ihNext =>
      by_cases inline : depth < budget
      · rw [emit_inline inline]
        exact ihNext _ _ _ (ihBody _ _ _ found)
      · cases known : hoisted.numbers[t]? with
        | some number' =>
            rw [emit_known inline known]
            exact ihNext _ _ _ found
        | none =>
            have other : t ≠ tag := by
              rintro rfl
              rw [known] at found
              cases found
            have entered : (hoisted.enter t).numbers[tag]? = some number := by
              rw [Hoisted.enter_numbers, if_neg other, found]
            rw [emit_new inline known]
            exact ihNext _ _ _ (ihBody _ _ _ entered)

end Linked

/-- The helpers have the numbers that `number` gives to their tags. -/
def Hoisted.NumberedBy (number : Nat → Nat) (h : Hoisted) : Prop :=
  ∀ {tag n : Nat}, h.numbers[tag]? = some n → number tag = n

namespace Linked

variable {budget : Nat} {number : Nat → Nat}

/-- Emission is numbering: the numbers of all helpers determine the statements. -/
theorem emit_numbered (l : Linked) {depth : Nat} {exit : DryExit} {hoisted : Hoisted}
    (given : (l.emit budget depth exit hoisted).2.NumberedBy number) :
    (l.emit budget depth exit hoisted).1 = l.numbered budget number depth exit := by
  induction l generalizing depth exit hoisted with
  | stop t => rfl
  | move t offset next ih => exact congrArg (Code.move offset.value) (ih given)
  | add t delta next ih => exact congrArg (Code.bump delta.byte) (ih given)
  | output t next ih => exact congrArg Code.write (ih given)
  | input t next ih => exact congrArg (Code.read exit) (ih given)
  | loop t body next ihBody ihNext =>
      by_cases inline : depth < budget
      · rw [emit_inline inline] at given ⊢
        have inBody : (body.emit budget (depth + 1) exit hoisted).2.NumberedBy number :=
          fun found => given (next.emit_keeps _ _ _ _ found)
        rw [numbered, if_pos inline, ihBody inBody, ihNext given]
      · cases known : hoisted.numbers[t]? with
        | some n =>
            rw [emit_known inline known] at given ⊢
            rw [numbered, if_neg inline, given (next.emit_keeps _ _ _ _ known), ihNext given]
        | none =>
            have entered : (hoisted.enter t).numbers[t]? = some hoisted.numbers.size := by
              rw [Hoisted.enter_numbers, if_pos rfl]
            rw [emit_new inline known] at given ⊢
            have here := given (next.emit_keeps _ _ _ _ (body.emit_keeps _ _ _ _ entered))
            rw [numbered, if_neg inline, here, ihNext given]

/-- The helper is a loop of the chain, under the number that the loop has. -/
def Defines (budget : Nat) (number : Nat → Nat) (l : Linked) (h : Hoisted) (helper : Helper) : Prop :=
  ∃ tag body next, .loop tag body next ∈ l.parts ∧ h.numbers[tag]? = some helper.number ∧
    helper.body = body.numbered budget number 1 .signal

theorem Defines.mono {l l' : Linked} {h h' : Hoisted} {helper : Helper}
    (defines : l.Defines budget number h helper) (sub : l.parts ⊆ l'.parts)
    (keeps : ∀ {tag n : Nat}, h.numbers[tag]? = some n → h'.numbers[tag]? = some n) :
    l'.Defines budget number h' helper := by
  obtain ⟨tag, body, next, part, found, same⟩ := defines
  exact ⟨tag, body, next, sub part, keeps found, same⟩

/-- Emission defines nothing else than loops of the chain. -/
theorem emit_defines (l : Linked) {depth : Nat} {exit : DryExit} {hoisted : Hoisted}
    (given : (l.emit budget depth exit hoisted).2.NumberedBy number) {helper : Helper}
    (mem : helper ∈ (l.emit budget depth exit hoisted).2.defined) :
    helper ∈ hoisted.defined ∨
      l.Defines budget number (l.emit budget depth exit hoisted).2 helper := by
  induction l generalizing depth exit hoisted with
  | stop t => exact .inl mem
  | move t offset next ih | add t delta next ih | output t next ih | input t next ih =>
      exact (ih given mem).imp_right fun defines =>
        defines.mono (List.subset_cons_self _ _) fun found => found
  | loop t body next ihBody ihNext =>
      have inBody : body.parts ⊆ (loop t body next).parts :=
        parts_subset_of_child List.mem_cons_self
      have inNext : next.parts ⊆ (loop t body next).parts :=
        parts_subset_of_child (List.mem_cons_of_mem _ List.mem_cons_self)
      by_cases inline : depth < budget
      · rw [emit_inline inline] at given mem ⊢
        have givenBody : (body.emit budget (depth + 1) exit hoisted).2.NumberedBy number :=
          fun found => given (next.emit_keeps _ _ _ _ found)
        rcases ihNext given mem with earlier | defines
        · exact (ihBody givenBody earlier).imp_right fun defines =>
            defines.mono inBody (next.emit_keeps _ _ _ _)
        · exact .inr (defines.mono inNext fun found => found)
      · cases known : hoisted.numbers[t]? with
        | some n =>
            rw [emit_known inline known] at given mem ⊢
            exact (ihNext given mem).imp_right fun defines =>
              defines.mono inNext fun found => found
        | none =>
            have entered : (hoisted.enter t).numbers[t]? = some hoisted.numbers.size := by
              rw [Hoisted.enter_numbers, if_pos rfl]
            rw [emit_new inline known] at given mem ⊢
            have givenBody : (body.emit budget 1 .signal (hoisted.enter t)).2.NumberedBy number :=
              fun found => given (next.emit_keeps _ _ _ (hoistNew budget hoisted t body) found)
            rcases ihNext given mem with earlier | defines
            · rcases List.mem_cons.mp earlier with rfl | earlier
              · refine .inr ⟨t, body, next, self_mem_parts _, ?_, body.emit_numbered givenBody⟩
                exact next.emit_keeps _ _ _ (hoistNew budget hoisted t body)
                  (body.emit_keeps _ _ _ _ entered)
              · exact (ihBody givenBody earlier).imp_right fun defines =>
                  defines.mono inBody (next.emit_keeps _ _ _ (hoistNew budget hoisted t body))
            · exact .inr (defines.mono inNext fun found => found)

end Linked

/-- Numbers are given in their order, each to one tag. -/
structure Hoisted.Counted (h : Hoisted) : Prop where
  below : ∀ {tag n : Nat}, h.numbers[tag]? = some n → n < h.numbers.size
  distinct : ∀ {tag tag' n : Nat}, h.numbers[tag]? = some n → h.numbers[tag']? = some n → tag = tag'

theorem Hoisted.Counted.enter {h : Hoisted} (counted : h.Counted) {tag : Nat}
    (new : h.numbers[tag]? = none) : (h.enter tag).Counted := by
  have size := Hoisted.enter_size new
  refine ⟨?_, ?_⟩
  · intro tag' n found
    rw [Hoisted.enter_numbers] at found
    rw [size]
    split at found
    · cases found
      exact Nat.lt_succ_self _
    · exact Nat.lt_succ_of_lt (counted.below found)
  · intro tag' tag'' n found found'
    rw [Hoisted.enter_numbers] at found found'
    -- a number that was given before is below the new one
    split at found <;> split at found'
    next same same' => exact same.symm.trans same'
    next => cases found; exact absurd (counted.below found') (Nat.lt_irrefl _)
    next => cases found'; exact absurd (counted.below found) (Nat.lt_irrefl _)
    next => exact counted.distinct found found'

theorem Linked.emit_counted (budget : Nat) (l : Linked) {depth : Nat} {exit : DryExit}
    {hoisted : Hoisted} (counted : hoisted.Counted) :
    (l.emit budget depth exit hoisted).2.Counted := by
  induction l generalizing depth exit hoisted with
  | stop t => exact counted
  | move t offset next ih | add t delta next ih | output t next ih | input t next ih =>
      exact ih counted
  | loop t body next ihBody ihNext =>
      by_cases inline : depth < budget
      · rw [emit_inline inline]
        exact ihNext (ihBody counted)
      · cases known : hoisted.numbers[t]? with
        | some n =>
            rw [emit_known inline known]
            exact ihNext counted
        | none =>
            rw [emit_new inline known]
            have inside : (body.emit budget 1 .signal (hoisted.enter t)).2.Counted :=
              ihBody (counted.enter known)
            exact ihNext ⟨inside.below, inside.distinct⟩

/-! ### The helpers of a whole routine -/

namespace Linked

/-- The helpers of a routine, with the number of each tag. -/
def hoisted (l : Linked) (config : Config) : Hoisted := (l.emit (l.budget config) 0 .leave .empty).2

/-- The number of a tag; one that is not in use if the tag has none. -/
def numberOf (l : Linked) (config : Config) (tag : Nat) : Nat :=
  (l.hoisted config).numbers[tag]?.getD (l.hoisted config).numbers.size

variable {l : Linked} {config : Config}

theorem numberOf_given : (l.hoisted config).NumberedBy (l.numberOf config) := by
  intro tag n found
  rw [numberOf, found, Option.getD_some]

theorem hoisted_counted : (l.hoisted config).Counted := by
  apply emit_counted
  refine ⟨?_, ?_⟩
  · intro tag n found
    simp only [Hoisted.empty, Std.HashMap.getElem?_empty, reduceCtorEq] at found
  · intro tag tag' n found
    simp only [Hoisted.empty, Std.HashMap.getElem?_empty, reduceCtorEq] at found

theorem routine_body : (l.routine config).body =
    l.numbered (l.budget config) (l.numberOf config) 0 .leave :=
  l.emit_numbered numberOf_given

/-- A number in use is that of one tag. -/
theorem found_of_numberOf {tag : Nat}
    (below : l.numberOf config tag < (l.hoisted config).numbers.size) :
    (l.hoisted config).numbers[tag]? = some (l.numberOf config tag) := by
  cases found : (l.hoisted config).numbers[tag]? with
  | some n => rw [numberOf, found, Option.getD_some]
  | none =>
      rw [numberOf, found, Option.getD_none] at below
      exact absurd below (Nat.lt_irrefl _)

/-- The tag has a number, under which the loop is defined. -/
structure Settled (l : Linked) (config : Config) (tag : Nat) (body : Linked) : Prop where
  found : (l.hoisted config).numbers[tag]? = some (l.numberOf config tag)
  defined : ⟨l.numberOf config tag,
    body.numbered (l.budget config) (l.numberOf config) 1 .signal⟩ ∈ (l.hoisted config).defined

theorem settled_of_calls (coherent : l.Coherent) {tag : Nat} {body next : Linked}
    (part : .loop tag body next ∈ l.parts)
    (called : l.numberOf config tag ∈ (l.hoisted config).defined.map Helper.number) :
    l.Settled config tag body ∧
      ∀ n ∈ (body.numbered (l.budget config) (l.numberOf config) 1 .signal).calls,
        n ∈ (l.hoisted config).defined.map Helper.number := by
  have sound : (l.hoisted config).Sound l.bodyAt (l.needsHelpers config) [] :=
    (l.emit_routine coherent config).sound
  obtain ⟨helper, mem, numbered⟩ := List.mem_map.mp called
  have found := found_of_numberOf (numbered ▸ sound.bound helper mem)
  obtain unclosed | ⟨code, defined, inlines⟩ := sound.defined found
  · cases unclosed
  · -- The helper comes from a loop with this number, hence with this tag, hence from this loop.
    obtain early | ⟨tag', body', next', part', found', same⟩ :=
      l.emit_defines numberOf_given defined
    · cases early
    · obtain rfl : tag = tag' := hoisted_counted.distinct found found'
      have node := coherent _ part _ part' rfl
      cases node
      obtain rfl : code = _ := same
      exact ⟨⟨found, defined⟩, inlines.calls⟩

/-- Every loop that is hoisted has its helper. -/
theorem settled_of_hoists (coherent : l.Coherent) {s : Linked} (sub : s.parts ⊆ l.parts) {depth : Nat}
    {exit : DryExit}
    (calls : ∀ n ∈ (s.numbered (l.budget config) (l.numberOf config) depth exit).calls,
      n ∈ (l.hoisted config).defined.map Helper.number) {tag : Nat} {body next : Linked}
    (mem : .loop tag body next ∈ s.hoists (l.budget config) depth) : l.Settled config tag body := by
  have inside {a s : Linked} (sub : s.parts ⊆ l.parts) (child : a ∈ s.children) :
      a.parts ⊆ l.parts := List.Subset.trans (parts_subset_of_child child) sub
  induction s generalizing depth exit with
  | stop t => cases mem
  | move t offset rest ih =>
      rw [numbered, Code.calls_move] at calls
      exact ih (inside sub List.mem_cons_self) calls mem
  | add t delta rest ih =>
      rw [numbered, Code.calls_bump] at calls
      exact ih (inside sub List.mem_cons_self) calls mem
  | output t rest ih | input t rest ih =>
      exact ih (inside sub List.mem_cons_self) calls mem
  | loop t inner rest ihBody ihNext =>
      have inBody : inner.parts ⊆ l.parts := inside sub List.mem_cons_self
      have inNext : rest.parts ⊆ l.parts :=
        inside sub (List.mem_cons_of_mem _ List.mem_cons_self)
      by_cases inline : depth < l.budget config
      · rw [numbered, if_pos inline] at calls
        rw [hoists, if_pos inline] at mem
        obtain ⟨callsBody, callsNext⟩ := List.forall_mem_append.mp calls
        rcases List.mem_append.mp mem with mem | mem
        · exact ihBody inBody callsBody mem
        · exact ihNext inNext callsNext mem
      · rw [numbered, if_neg inline] at calls
        rw [hoists, if_neg inline] at mem
        obtain ⟨called, callsNext⟩ := List.forall_mem_cons.mp calls
        obtain ⟨settled, callsBody⟩ := settled_of_calls coherent (sub (self_mem_parts _)) called
        rcases List.mem_cons.mp mem with same | mem
        · cases same
          exact settled
        · rcases List.mem_append.mp mem with mem | mem
          · exact ihBody inBody callsBody mem
          · exact ihNext inNext callsNext mem

end Linked

end TapeChain
