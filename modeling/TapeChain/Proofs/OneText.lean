import TapeChain.Proofs.Interning
import TapeChain.Proofs.Legibility
import TapeChain.Proofs.Numbering

/-! Which equal chains have one text. Helpers go by node and not by chain, so two equal chains have one
text exactly if the loops beyond the inline depth are shared alike in both. Lowered programs always
share alike; a lowered program and the same chain read from text do so only if no such loop occurs
twice. -/
namespace TapeChain

/-! ### Two chains side by side -/

namespace Linked

/-- The hoisted loops of two chains, place by place. -/
def pairs (budget depth : Nat) (a b : Linked) : List (Linked × Linked) :=
  (a.hoists budget depth).zip (b.hoists budget depth)

theorem length_hoists {a b : Linked} (twins : Twins a b) (budget depth : Nat) :
    (a.hoists budget depth).length = (b.hoists budget depth).length := by
  induction twins generalizing depth with
  | stop s t => rfl
  | move offset _ ih => exact ih depth
  | add delta _ ih => exact ih depth
  | output _ ih => exact ih depth
  | input _ ih => exact ih depth
  | loop _ _ ihBody ihNext =>
      simp only [hoists]
      split
      · rw [List.length_append, List.length_append, ihBody, ihNext]
      · rw [List.length_cons, List.length_cons, List.length_append, List.length_append, ihBody,
          ihNext]

section
variable {budget depth s t : Nat} {body body' next next' : Linked}

theorem pairs_inline (twins : Twins body body') (inline : depth < budget) :
    pairs budget depth (.loop s body next) (.loop t body' next') =
      pairs budget (depth + 1) body body' ++ pairs budget depth next next' := by
  rw [pairs, hoists, hoists, if_pos inline, if_pos inline,
    List.zip_append (length_hoists twins budget (depth + 1))]
  rfl

theorem pairs_deep (twins : Twins body body') (deep : ¬ depth < budget) :
    pairs budget depth (.loop s body next) (.loop t body' next') =
      (.loop s body next, .loop t body' next') ::
        (pairs budget 1 body body' ++ pairs budget depth next next') := by
  rw [pairs, hoists, hoists, if_neg deep, if_neg deep, List.zip_cons_cons,
    List.zip_append (length_hoists twins budget 1)]
  rfl

end

end Linked

/-- The states of two emissions that give the same helpers, and the same number to the two tags of
every pair. -/
structure Hoisted.Matches (paired : Nat → Nat → Prop) (h k : Hoisted) : Prop where
  size : h.numbers.size = k.numbers.size
  defined : h.defined = k.defined
  numbers : ∀ {s t : Nat}, paired s t → h.numbers[s]? = k.numbers[t]?

section
variable {paired : Nat → Nat → Prop} {budget : Nat}
  (alike : ∀ {s t s' t' : Nat}, paired s t → paired s' t' → (s = s' ↔ t = t'))
include alike

theorem Hoisted.Matches.enter {h k : Hoisted} (same : h.Matches paired k) {s t : Nat}
    (here : paired s t) (new : h.numbers[s]? = none) :
    (h.enter s).Matches paired (k.enter t) := by
  have new' : k.numbers[t]? = none := same.numbers here ▸ new
  refine ⟨?_, same.defined, ?_⟩
  · rw [Hoisted.enter_size new, Hoisted.enter_size new', same.size]
  · intro s' t' there
    rw [Hoisted.enter_numbers, Hoisted.enter_numbers, same.size, same.numbers there]
    simp only [alike here there]

/-- Loops that are shared alike are hoisted alike. -/
theorem Twins.emit_matches {a b : Linked} (twins : Twins a b) {depth : Nat} {exit : DryExit}
    {h k : Hoisted} (inside : ∀ p ∈ Linked.pairs budget depth a b, paired p.1.tag p.2.tag)
    (same : h.Matches paired k) :
    (a.emit budget depth exit h).1 = (b.emit budget depth exit k).1 ∧
      (a.emit budget depth exit h).2.Matches paired (b.emit budget depth exit k).2 := by
  induction twins generalizing depth exit h k with
  | stop s t => exact ⟨rfl, same⟩
  | move offset _ ih =>
      obtain ⟨codes, states⟩ := ih inside same
      exact ⟨congrArg (Code.move offset.value) codes, states⟩
  | add delta _ ih =>
      obtain ⟨codes, states⟩ := ih inside same
      exact ⟨congrArg (Code.bump delta.byte) codes, states⟩
  | output _ ih =>
      obtain ⟨codes, states⟩ := ih inside same
      exact ⟨congrArg Code.write codes, states⟩
  | input _ ih =>
      obtain ⟨codes, states⟩ := ih inside same
      exact ⟨congrArg (Code.read exit) codes, states⟩
  | @loop s t body body' next next' twins _ ihBody ihNext =>
      by_cases inline : depth < budget
      · rw [Linked.pairs_inline twins inline, List.forall_mem_append] at inside
        obtain ⟨codes, states⟩ := ihBody inside.1 same
        obtain ⟨codes', states'⟩ := ihNext inside.2 states
        rw [Linked.emit_inline inline, Linked.emit_inline inline]
        exact ⟨congrArg₂ Code.loop codes codes', states'⟩
      · rw [Linked.pairs_deep twins inline, List.forall_mem_cons, List.forall_mem_append] at inside
        obtain ⟨inHere, inBody, inNext⟩ := inside
        have here : paired s t := inHere
        have numbers := same.numbers here
        cases known : h.numbers[s]? with
        | some n =>
            have known' : k.numbers[t]? = some n := numbers ▸ known
            obtain ⟨codes, states⟩ := ihNext inNext same
            rw [Linked.emit_known inline known, Linked.emit_known inline known']
            exact ⟨congrArg (Code.call n) codes, states⟩
        | none =>
            -- The loop is new to both emissions, which have given equally many numbers so far.
            have new' : k.numbers[t]? = none := numbers ▸ known
            obtain ⟨bodies, states⟩ := ihBody inBody (same.enter alike here known)
            have defined : (Linked.hoistNew budget h s body).Matches paired
                (Linked.hoistNew budget k t body') := by
              refine ⟨states.size, ?_, states.numbers⟩
              simp only [Linked.hoistNew, Hoisted.define, same.size, bodies, states.defined]
            obtain ⟨codes, states⟩ := ihNext inNext defined
            rw [Linked.emit_new inline known, Linked.emit_new inline new', same.size]
            exact ⟨congrArg (Code.call _) codes, states⟩

end

/-- With the same helpers, equal statements call under equal numbers, in their helpers too. -/
theorem Twins.numberOf_eq {a b : Linked} {config : Config}
    (distinct : ((a.hoisted config).defined.map Helper.number).Nodup)
    (helpers : (a.hoisted config).defined = (b.hoisted config).defined)
    (budgets : a.budget config = b.budget config) {s t : Linked}
    (twins : Twins s t) {depth : Nat} {exit : DryExit}
    (settled : ∀ {tag body next}, .loop tag body next ∈ s.hoists (a.budget config) depth →
      a.Settled config tag body)
    (settled' : ∀ {tag body next}, .loop tag body next ∈ t.hoists (a.budget config) depth →
      b.Settled config tag body)
    (same : s.numbered (a.budget config) (a.numberOf config) depth exit =
      t.numbered (a.budget config) (b.numberOf config) depth exit) :
    ∀ p ∈ Linked.pairs (a.budget config) depth s t,
      a.numberOf config p.1.tag = b.numberOf config p.2.tag := by
  induction twins generalizing depth exit with
  | stop s t => exact List.forall_mem_nil _
  | move offset _ ih => exact ih settled settled' (Code.move_inj same)
  | add delta _ ih => exact ih settled settled' (Code.bump_inj same)
  | output _ ih => exact ih settled settled' (Code.write.inj same)
  | input _ ih => exact ih settled settled' (Code.read.inj same).2
  | @loop s t body body' next next' twins _ ihBody ihNext =>
      simp only [Linked.hoists, Linked.numbered] at settled settled' same
      by_cases inline : depth < a.budget config
      · rw [if_pos inline] at settled settled'
        rw [if_pos inline, if_pos inline] at same
        obtain ⟨bodies, nexts⟩ := Code.loop.inj same
        rw [Linked.pairs_inline twins inline, List.forall_mem_append]
        exact ⟨ihBody (fun mem => settled (List.mem_append_left _ mem))
            (fun mem => settled' (List.mem_append_left _ mem)) bodies,
          ihNext (fun mem => settled (List.mem_append_right _ mem))
            (fun mem => settled' (List.mem_append_right _ mem)) nexts⟩
      · rw [if_neg inline] at settled settled'
        rw [if_neg inline, if_neg inline] at same
        obtain ⟨numbers, nexts⟩ := Code.call.inj same
        have defined := (settled List.mem_cons_self).defined
        have defined' := (settled' List.mem_cons_self).defined
        rw [← helpers, ← budgets] at defined'
        -- Equal numbers name one helper, so the bodies of the two loops are equal statements too.
        have one := List.inj_on_of_nodup_map distinct defined defined' numbers
        rw [Linked.pairs_deep twins inline, List.forall_mem_cons, List.forall_mem_append]
        exact ⟨numbers,
          ihBody (fun mem => settled (List.mem_cons_of_mem _ (List.mem_append_left _ mem)))
            (fun mem => settled' (List.mem_cons_of_mem _ (List.mem_append_left _ mem)))
            (Helper.mk.inj one).2,
          ihNext (fun mem => settled (List.mem_cons_of_mem _ (List.mem_append_right _ mem)))
            (fun mem => settled' (List.mem_cons_of_mem _ (List.mem_append_right _ mem))) nexts⟩

namespace Linked

/-- Two loops that are hoisted from the one chain are one node exactly if those at the same places of
the other chain are. -/
def SharedAlike (budget : Nat) (a b : Linked) : Prop :=
  ∀ p ∈ pairs budget 0 a b, ∀ q ∈ pairs budget 0 a b, p.1.tag = q.1.tag ↔ p.2.tag = q.2.tag

theorem loop_of_mem_hoists {budget depth : Nat} {l node : Linked} (mem : node ∈ l.hoists budget depth) :
    ∃ tag body next, node = .loop tag body next := by
  induction l generalizing depth with
  | stop t => cases mem
  | move t offset next ih | add t delta next ih | output t next ih | input t next ih => exact ih mem
  | loop t body next ihBody ihNext =>
      rw [hoists] at mem
      split at mem
      · exact (List.mem_append.mp mem).elim ihBody ihNext
      · rcases List.mem_cons.mp mem with rfl | mem
        · exact ⟨t, body, next, rfl⟩
        · exact (List.mem_append.mp mem).elim ihBody ihNext

theorem settled {l : Linked} (coherent : l.Coherent) (config : Config) {tag : Nat}
    {body next : Linked} (mem : .loop tag body next ∈ l.hoists (l.budget config) 0) :
    l.Settled config tag body := by
  have calls : ∀ n ∈ (l.numbered (l.budget config) (l.numberOf config) 0 .leave).calls,
      n ∈ (l.hoisted config).defined.map Helper.number := by
    rw [← routine_body]
    exact (l.emit_routine coherent config).inlines.calls
  exact settled_of_hoists coherent (List.Subset.refl _) calls mem

/-- Hoisted loops have one number exactly if they are one node. -/
theorem tag_eq_iff {l : Linked} (coherent : l.Coherent) (config : Config) {x y : Linked}
    (hx : x ∈ l.hoists (l.budget config) 0) (hy : y ∈ l.hoists (l.budget config) 0) :
    x.tag = y.tag ↔ l.numberOf config x.tag = l.numberOf config y.tag := by
  obtain ⟨s, body, next, rfl⟩ := loop_of_mem_hoists hx
  obtain ⟨t, body', next', rfl⟩ := loop_of_mem_hoists hy
  constructor
  · exact congrArg (l.numberOf config)
  · intro same
    have found := (settled coherent config hx).found.trans (congrArg some same)
    exact hoisted_counted.distinct found (settled coherent config hy).found

theorem budget_eq {a b : Linked} (same : a.chain = b.chain) (config : Config) :
    a.needsHelpers config = b.needsHelpers config ∧ a.budget config = b.budget config := by
  have helpers : a.needsHelpers config = b.needsHelpers config := by
    rw [needsHelpers, needsHelpers, same]
  exact ⟨helpers, by rw [budget, budget, helpers]⟩

theorem shared_of_routine {a b : Linked} (coherent : a.Coherent) (coherent' : b.Coherent)
    (twins : Twins a b) {config : Config} (same : a.routine config = b.routine config) :
    SharedAlike (a.budget config) a b := by
  obtain ⟨-, budgets⟩ := budget_eq twins.chain_eq config
  have helpers : (a.hoisted config).defined = (b.hoisted config).defined :=
    List.reverse_injective (congrArg Routine.helpers same)
  have codes : a.numbered (a.budget config) (a.numberOf config) 0 .leave =
      b.numbered (a.budget config) (b.numberOf config) 0 .leave := by
    rw [← routine_body, same, routine_body, budgets]
  have agree := twins.numberOf_eq (a.emit_routine coherent config).sound.distinct helpers budgets
    (settled coherent config) (budgets ▸ settled coherent' config) codes
  intro p hp q hq
  obtain ⟨hp1, hp2⟩ := List.of_mem_zip hp
  obtain ⟨hq1, hq2⟩ := List.of_mem_zip hq
  rw [tag_eq_iff coherent config hp1 hq1, agree p hp, agree q hq,
    ← tag_eq_iff coherent' config (budgets ▸ hp2) (budgets ▸ hq2)]

theorem routine_of_shared {a b : Linked} (twins : Twins a b) {config : Config}
    (shared : SharedAlike (a.budget config) a b) : a.routine config = b.routine config := by
  obtain ⟨guards, budgets⟩ := budget_eq twins.chain_eq config
  let paired (s t : Nat) : Prop := ∃ p ∈ pairs (a.budget config) 0 a b, p.1.tag = s ∧ p.2.tag = t
  have alike : ∀ {s t s' t' : Nat}, paired s t → paired s' t' → (s = s' ↔ t = t') := by
    rintro s t s' t' ⟨p, hp, rfl, rfl⟩ ⟨q, hq, rfl, rfl⟩
    exact shared p hp q hq
  have start : Hoisted.empty.Matches paired .empty :=
    ⟨rfl, rfl, fun _ => by simp only [Hoisted.empty, Std.HashMap.getElem?_empty]⟩
  have inside : ∀ p ∈ pairs (a.budget config) 0 a b, paired p.1.tag p.2.tag :=
    fun p hp => ⟨p, hp, rfl, rfl⟩
  have whole (l : Linked) : l.routine config =
      ⟨(l.emit (l.budget config) 0 .leave .empty).2.defined.reverse, l.needsHelpers config,
        (l.emit (l.budget config) 0 .leave .empty).1⟩ := rfl
  obtain ⟨codes, states⟩ := twins.emit_matches alike inside start
  rw [whole a, whole b, ← budgets, codes, states.defined, guards]

/-! ### Chains that were lowered or read -/

theorem hoists_sublist (budget depth : Nat) (l : Linked) : (l.hoists budget depth).Sublist l.parts := by
  induction l generalizing depth with
  | stop t => exact List.nil_sublist _
  | move t offset next ih | add t delta next ih | output t next ih | input t next ih =>
      exact (ih depth).cons _
  | loop t body next ihBody ihNext =>
      rw [hoists]
      split
      · exact ((ihBody (depth + 1)).append (ihNext depth)).cons _
      · exact ((ihBody 1).append (ihNext depth)).cons_cons _

theorem twins_of_mem_pairs {a b : Linked} (twins : Twins a b) {budget depth : Nat}
    {p : Linked × Linked} (mem : p ∈ pairs budget depth a b) : Twins p.1 p.2 := by
  induction twins generalizing depth with
  | stop s t => cases mem
  | move offset _ ih => exact ih mem
  | add delta _ ih => exact ih mem
  | output _ ih => exact ih mem
  | input _ ih => exact ih mem
  | loop body next ihBody ihNext =>
      by_cases inline : depth < budget
      · rw [pairs_inline body inline] at mem
        exact (List.mem_append.mp mem).elim ihBody ihNext
      · rw [pairs_deep body inline] at mem
        rcases List.mem_cons.mp mem with rfl | mem
        · exact .loop body next
        · exact (List.mem_append.mp mem).elim ihBody ihNext

/-- The hoisted loops of a lowered program are one node exactly if they are equal. -/
theorem lower_tag_eq_iff {p : Program} {budget : Nat} {x y : Linked}
    (hx : x ∈ p.lower.hoists budget 0) (hy : y ∈ p.lower.hoists budget 0) :
    x.tag = y.tag ↔ x.chain = y.chain := by
  have inX := (hoists_sublist budget 0 p.lower).subset hx
  have inY := (hoists_sublist budget 0 p.lower).subset hy
  exact p.tag_eq_iff_chain_eq inX inY

/-- Two lowered programs share alike. -/
theorem lower_sharedAlike {p q : Program} (same : p.chain = q.chain) (budget : Nat) :
    SharedAlike budget p.lower q.lower := by
  have twins : Twins p.lower q.lower := .of_chain (by rw [p.lower_chain, q.lower_chain, same])
  intro u hu v hv
  obtain ⟨hu1, hu2⟩ := List.of_mem_zip hu
  obtain ⟨hv1, hv2⟩ := List.of_mem_zip hv
  rw [lower_tag_eq_iff hu1 hv1, lower_tag_eq_iff hu2 hv2, (twins_of_mem_pairs twins hu).chain_eq,
    (twins_of_mem_pairs twins hv).chain_eq]

end Linked

/-- The loops of a chain that become helpers, as in `Linked.hoists`. -/
def Chain.hoists (budget : Nat) (depth : Nat) : Chain → List Chain
  | .stop => []
  | .move _ next => next.hoists budget depth
  | .add _ next => next.hoists budget depth
  | .output next => next.hoists budget depth
  | .input next => next.hoists budget depth
  | .loop body next =>
    if depth < budget then body.hoists budget (depth + 1) ++ next.hoists budget depth
    else .loop body next :: (body.hoists budget 1 ++ next.hoists budget depth)

namespace Linked

theorem map_chain_hoists (budget depth : Nat) (l : Linked) :
    (l.hoists budget depth).map chain = l.chain.hoists budget depth := by
  induction l generalizing depth with
  | stop t => rfl
  | move t offset next ih | add t delta next ih | output t next ih | input t next ih => exact ih depth
  | loop t body next ihBody ihNext =>
      simp only [hoists, chain, Chain.hoists]
      split
      · rw [List.map_append, ihBody, ihNext]
      · rw [List.map_cons, List.map_append, ihBody, ihNext]
        rfl

/-- A lowered program and the one that is read from its text share alike exactly if there is nothing
to share. -/
theorem lower_fresh_sharedAlike_iff (p : Program) (budget : Nat) :
    SharedAlike budget p.lower (fresh p.chain) ↔ (p.chain.hoists budget 0).Nodup := by
  have twins : Twins p.lower (fresh p.chain) := .of_chain (by rw [p.lower_chain, fresh_chain])
  have lengths := length_hoists twins budget 0
  have chains : (pairs budget 0 p.lower (fresh p.chain)).map (fun u => u.1.chain) =
      p.chain.hoists budget 0 := by
    have whole : (p.lower.hoists budget 0).map chain = p.chain.hoists budget 0 := by
      rw [map_chain_hoists, p.lower_chain]
    rw [← whole, ← List.map_fst_zip (Nat.le_of_eq lengths), List.map_map]
    rfl
  have tags : ((pairs budget 0 p.lower (fresh p.chain)).map fun u => u.2.tag).Nodup := by
    have distinct := ((hoists_sublist budget 0 (fresh p.chain)).map tag).nodup (fresh_tags_nodup p.chain)
    rw [← List.map_snd_zip (Nat.le_of_eq lengths.symm), List.map_map] at distinct
    exact distinct
  rw [← chains]
  constructor
  · intro shared
    refine (List.Nodup.of_map _ tags).map_on ?_
    intro u hu v hv same
    have one := (lower_tag_eq_iff (List.of_mem_zip hu).1 (List.of_mem_zip hv).1).mpr same
    exact List.inj_on_of_nodup_map tags hu hv ((shared u hu v hv).mp one)
  · intro distinct u hu v hv
    rw [lower_tag_eq_iff (List.of_mem_zip hu).1 (List.of_mem_zip hv).1]
    constructor
    · intro same
      rw [List.inj_on_of_nodup_map distinct hu hv same]
    · intro same
      rw [List.inj_on_of_nodup_map tags hu hv same]

theorem text_eq_iff_sharedAlike {a b : Linked} (coherent : a.Coherent) (coherent' : b.Coherent)
    (same : a.chain = b.chain) (config : Config) :
    (a.routine config).text = (b.routine config).text ↔ SharedAlike (a.budget config) a b := by
  constructor
  · intro text
    exact shared_of_routine coherent coherent' (.of_chain same) (Routine.eq_of_text text)
  · intro shared
    rw [routine_of_shared (.of_chain same) shared]

theorem lower_fresh_text_eq_iff (p : Program) (config : Config) :
    (p.lower.routine config).text = ((fresh p.chain).routine config).text ↔
      (p.chain.hoists (p.lower.budget config) 0).Nodup := by
  have same : p.lower.chain = (fresh p.chain).chain := by rw [p.lower_chain, fresh_chain]
  rw [text_eq_iff_sharedAlike p.lower_coherent (fresh_coherent p.chain) same]
  exact lower_fresh_sharedAlike_iff p _

end Linked

/-- Equal chains have one text exactly if their hoisted loops are shared alike. So it is with any two
lowered programs, but with a lowered program and the chain read from its text only if all loops that
are hoisted from it are different. -/
theorem one_text_iff_shared_alike (config : Config) :
    (∀ a b : Linked, a.Coherent → b.Coherent → a.chain = b.chain →
      ((a.routine config).text = (b.routine config).text ↔
        Linked.SharedAlike (a.budget config) a b)) ∧
    (∀ p q : Program, p.chain = q.chain →
      (p.lower.routine config).text = (q.lower.routine config).text) ∧
    ∀ p : Program, (p.lower.routine config).text = ((Linked.fresh p.chain).routine config).text ↔
      (p.chain.hoists (p.lower.budget config) 0).Nodup := by
  refine ⟨?_, ?_, ?_⟩
  · intro a b coherent coherent' same
    exact Linked.text_eq_iff_sharedAlike coherent coherent' same config
  · intro p q same
    have chains : p.lower.chain = q.lower.chain := by rw [p.lower_chain, q.lower_chain, same]
    rw [Linked.text_eq_iff_sharedAlike p.lower_coherent q.lower_coherent chains]
    exact Linked.lower_sharedAlike same _
  · intro p
    exact Linked.lower_fresh_text_eq_iff p config

/-- Two loops that are hoisted and differ in an addition. -/
theorem different_loops_one_text :
    let p : Program := .loop (.loop .done .done) (.loop (.loop (.add 1 .done) .done) .done)
    let config : Config := { inlineDepth := 1 }
    p.lower.Coherent ∧ (Linked.fresh p.chain).Coherent ∧
      p.lower.chain = (Linked.fresh p.chain).chain ∧
      (p.chain.hoists (p.lower.budget config) 0).Nodup ∧
      (p.lower.routine config).text = ((Linked.fresh p.chain).routine config).text ∧
      Linked.SharedAlike (p.lower.budget config) p.lower (Linked.fresh p.chain) := by
  intro p config
  have coherent := p.lower_coherent
  have coherent' := Linked.fresh_coherent p.chain
  have same : p.lower.chain = (Linked.fresh p.chain).chain := by
    rw [p.lower_chain, Linked.fresh_chain]
  have budget : p.lower.budget config = 0 := by
    rw [Linked.budget, Linked.needsHelpers, p.lower_chain, Chain.depth_eq_nesting]
    decide
  have distinct : (p.chain.hoists (p.lower.budget config) 0).Nodup := by
    rw [budget]
    decide
  obtain ⟨general, -, mixed⟩ := one_text_iff_shared_alike config
  have text := (mixed p).mpr distinct
  exact ⟨coherent, coherent', same, distinct, text,
    (general _ _ coherent coherent' same).mp text⟩

/-- Two equal loops that are hoisted: lowering makes them one node, and one helper. -/
theorem equal_loops_two_texts :
    let p : Program := .loop (.loop .done .done) (.loop (.loop .done .done) .done)
    let config : Config := { inlineDepth := 1 }
    p.lower.Coherent ∧ (Linked.fresh p.chain).Coherent ∧
      p.lower.chain = (Linked.fresh p.chain).chain ∧
      (p.lower.routine config).text ≠ ((Linked.fresh p.chain).routine config).text := by
  intro p config
  have budget : p.lower.budget config = 0 := by
    rw [Linked.budget, Linked.needsHelpers, p.lower_chain, Chain.depth_eq_nesting]
    decide
  refine ⟨p.lower_coherent, Linked.fresh_coherent p.chain, ?_, ?_⟩
  · rw [p.lower_chain, Linked.fresh_chain]
  · rw [Ne, Linked.lower_fresh_text_eq_iff, budget]
    decide

end TapeChain
