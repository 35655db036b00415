import TapeChain.Proofs.Hoisting

/-! The helpers of a routine. Helpers are numbered when a loop is first met and defined when its body
is complete, so the numbers are not in the order of the definitions; but every number is used once, and
every call goes to a definition that is complete. There are helpers exactly if some loop nests deeper
than the inline depth, although the depth is measured apart from emission and the guard takes a level
of the budget. -/
namespace TapeChain

namespace Linked

variable {budget : Nat}

/-- A chain that fits into the budget needs no helper. -/
theorem emit_shallow (l : Linked) {depth : Nat} (fits : depth + l.chain.nesting ≤ budget)
    (exit : DryExit) (hoisted : Hoisted) : (l.emit budget depth exit hoisted).2 = hoisted := by
  induction l generalizing depth with
  | stop tag => rfl
  | move tag offset next ih => exact ih fits
  | add tag delta next ih => exact ih fits
  | output tag next ih => exact ih fits
  | input tag next ih => exact ih fits
  | loop tag body next ihBody ihNext =>
      simp only [chain, Chain.nesting] at fits
      have inline : depth < budget := by omega
      have inBody : depth + 1 + body.chain.nesting ≤ budget := by omega
      have inNext : depth + next.chain.nesting ≤ budget := by omega
      simp only [emit, if_pos inline, ihBody inBody, ihNext inNext]

theorem emit_size_le (budget : Nat) (l : Linked) (depth : Nat) (exit : DryExit) (hoisted : Hoisted) :
    hoisted.numbers.size ≤ (l.emit budget depth exit hoisted).2.numbers.size := by
  induction l generalizing depth exit hoisted with
  | stop tag => exact Nat.le_refl _
  | move tag offset next ih => exact ih depth exit hoisted
  | add tag delta next ih => exact ih depth exit hoisted
  | output tag next ih => exact ih depth exit hoisted
  | input tag next ih => exact ih depth exit hoisted
  | loop tag body next ihBody ihNext =>
      rw [emit]
      split
      · exact Nat.le_trans (ihBody _ _ _) (ihNext _ _ _)
      · split
        · exact ihNext _ _ _
        · have entered : hoisted.numbers.size ≤ (hoisted.enter tag).numbers.size :=
            Std.HashMap.size_le_size_insert
          have inside := ihBody 1 .signal (hoisted.enter tag)
          have behind := ihNext depth exit ((body.emit budget 1 .signal (hoisted.enter tag)).2.define
            hoisted.numbers.size (body.emit budget 1 .signal (hoisted.enter tag)).1)
          exact Nat.le_trans (Nat.le_trans entered inside) behind

/-- A chain that does not fit into the budget numbers some loop. -/
theorem emit_deep (l : Linked) {depth : Nat} (deep : budget < depth + l.chain.nesting)
    (within : depth ≤ budget) (exit : DryExit) (hoisted : Hoisted) :
    0 < (l.emit budget depth exit hoisted).2.numbers.size := by
  induction l generalizing depth hoisted with
  | stop tag =>
      simp only [chain, Chain.nesting] at deep
      omega
  | move tag offset next ih => exact ih deep within hoisted
  | add tag delta next ih => exact ih deep within hoisted
  | output tag next ih => exact ih deep within hoisted
  | input tag next ih => exact ih deep within hoisted
  | loop tag body next ihBody ihNext =>
      rw [emit]
      split
      · next inline =>
          simp only [chain, Chain.nesting] at deep
          by_cases here : budget < depth + 1 + body.chain.nesting
          · exact Nat.lt_of_lt_of_le (ihBody here inline hoisted) (next.emit_size_le _ _ _ _)
          · exact ihNext (by omega) within _
      · split
        · next number found =>
            have present : tag ∈ hoisted.numbers := by
              rw [Std.HashMap.mem_iff_isSome_getElem?, found]
              rfl
            have counted : 0 < hoisted.numbers.size := by
              by_contra zero
              have empty : hoisted.numbers.isEmpty = true := by
                rw [Std.HashMap.isEmpty_eq_size_eq_zero, beq_iff_eq]
                omega
              exact Std.HashMap.not_mem_of_isEmpty empty present
            exact Nat.lt_of_lt_of_le counted (next.emit_size_le _ _ _ _)
        · next new =>
            have entered : 0 < (hoisted.enter tag).numbers.size := by
              rw [Hoisted.enter_size new]
              exact Nat.succ_pos _
            have inside := body.emit_size_le budget 1 .signal (hoisted.enter tag)
            have behind := next.emit_size_le budget depth exit
              ((body.emit budget 1 .signal (hoisted.enter tag)).2.define
                hoisted.numbers.size (body.emit budget 1 .signal (hoisted.enter tag)).1)
            exact Nat.lt_of_lt_of_le entered (Nat.le_trans inside behind)

theorem helpers_ne_nil_iff {l : Linked} (coherent : l.Coherent) (config : Config) :
    (l.routine config).helpers ≠ [] ↔ config.inlineDepth < l.chain.depth := by
  have one_le := config.one_le_inlineDepth
  have emits := l.emit_routine coherent config
  change (l.emit (l.budget config) 0 .leave .empty).2.defined.reverse ≠ [] ↔ _
  rw [ne_eq, List.reverse_eq_nil_iff]
  constructor
  · intro present
    by_contra shallow
    have unguarded : l.needsHelpers config = false := decide_eq_false shallow
    rw [Chain.depth_eq_nesting, Nat.not_lt] at shallow
    have fits : 0 + l.chain.nesting ≤ l.budget config := by
      rw [budget, unguarded, Nat.zero_add]
      exact shallow
    exact present (congrArg Hoisted.defined (l.emit_shallow fits .leave .empty))
  · intro deep empty
    have under : l.needsHelpers config = true := decide_eq_true deep
    rw [Chain.depth_eq_nesting] at deep
    have short : l.budget config < 0 + l.chain.nesting := by
      rw [budget, under, if_pos rfl]
      omega
    -- the loop with the first number is closed, so it has a definition
    obtain ⟨tag, found⟩ := emits.sound.used (l.emit_deep short (Nat.zero_le _) .leave .empty)
    obtain unclosed | ⟨body, defined, -⟩ := emits.sound.defined found
    · cases unclosed
    · rw [empty] at defined
      cases defined

/-- The numbers in use are the first ones, each for one helper. -/
theorem helpers_perm_range {l : Linked} (coherent : l.Coherent) (config : Config) :
    ((l.routine config).helpers.map Helper.number).Perm
      (List.range (l.routine config).helpers.length) := by
  have sound := (l.emit_routine coherent config).sound
  have all : ((l.routine config).helpers.map Helper.number).Perm
      (List.range (l.emit (l.budget config) 0 .leave .empty).2.numbers.size) := by
    rw [List.perm_ext_iff_of_nodup (l.routine_serves coherent config).distinct List.nodup_range]
    intro number
    rw [List.mem_range]
    constructor
    · intro mem
      obtain ⟨helper, defined, rfl⟩ := List.mem_map.mp mem
      exact sound.bound helper (List.mem_reverse.mp defined)
    · intro below
      obtain ⟨tag, found⟩ := sound.used below
      obtain unclosed | ⟨body, defined, -⟩ := sound.defined found
      · cases unclosed
      · exact List.mem_map.mpr ⟨_, List.mem_reverse.mpr defined, rfl⟩
  have count := all.length_eq
  rw [List.length_map, List.length_range] at count
  rwa [count]

end Linked

/-- Each helper calls only those that stand behind it in the list, that is, earlier ones. -/
theorem Ordered.split {guarded : Bool} {helpers : List Helper} (h : Ordered guarded helpers)
    {later earlier : List Helper} {helper : Helper} (same : helpers = later ++ helper :: earlier) :
    ∃ plain, Inlines earlier guarded .signal helper.body plain := by
  induction h generalizing later with
  | nil => simp at same
  | @cons first rest plain inlines _ ih =>
      cases later with
      | nil =>
          obtain ⟨rfl, rfl⟩ := List.cons.inj same
          exact ⟨plain, inlines⟩
      | cons _ later => exact ih (List.cons.inj same).2

theorem Linked.helper_calls_earlier {l : Linked} (coherent : l.Coherent) (config : Config)
    {earlier later : List Helper} {helper : Helper}
    (same : (l.routine config).helpers = earlier ++ helper :: later) :
    ∃ plain, Inlines earlier (l.needsHelpers config) .signal helper.body plain := by
  have ordered := (l.emit_routine coherent config).sound.ordered
  have reversed : (l.emit (l.budget config) 0 .leave .empty).2.defined =
      later.reverse ++ helper :: earlier.reverse := by
    have back := congrArg List.reverse same
    simpa [routine, budget] using back
  obtain ⟨plain, inlines⟩ := ordered.split reversed
  exact ⟨plain, inlines.mono fun _ mem => List.mem_reverse.mp mem⟩

end TapeChain
