import Mathlib.Data.Finset.Card
import TapeChain.Proofs.Sharing

/-! Maximal sharing. One table for a whole program gives equal chains one tag, and a tag belongs to
one node only, so a lowered program has as many nodes as it has different sub-chains. -/
namespace TapeChain

/-- Chains that are equal but for their tags. -/
inductive Twins : Linked → Linked → Prop
  | stop (s t : Nat) : Twins (.stop s) (.stop t)
  | move {s t next next'} (offset : Operand) : Twins next next' →
      Twins (.move s offset next) (.move t offset next')
  | add {s t next next'} (delta : Operand) : Twins next next' →
      Twins (.add s delta next) (.add t delta next')
  | output {s t next next'} : Twins next next' → Twins (.output s next) (.output t next')
  | input {s t next next'} : Twins next next' → Twins (.input s next) (.input t next')
  | loop {s t body body' next next'} : Twins body body' → Twins next next' →
      Twins (.loop s body next) (.loop t body' next')

theorem Twins.chain_eq {a b : Linked} (h : Twins a b) : a.chain = b.chain := by
  induction h with
  | stop s t => rfl
  | move offset _ ih => exact congrArg (Chain.move offset) ih
  | add delta _ ih => exact congrArg (Chain.add delta) ih
  | output _ ih => exact congrArg Chain.output ih
  | input _ ih => exact congrArg Chain.input ih
  | loop _ _ ihBody ihNext => exact congrArg₂ Chain.loop ihBody ihNext

theorem Twins.of_chain {a b : Linked} (h : a.chain = b.chain) : Twins a b := by
  induction a generalizing b with
  | stop s =>
      cases b with
      | stop t => exact .stop s t
      | _ => cases h
  | move s offset next ih =>
      cases b with
      | move t offset' next' =>
          obtain ⟨rfl, same⟩ := Chain.move.inj h
          exact .move _ (ih same)
      | _ => cases h
  | add s delta next ih =>
      cases b with
      | add t delta' next' =>
          obtain ⟨rfl, same⟩ := Chain.add.inj h
          exact .add _ (ih same)
      | _ => cases h
  | output s next ih =>
      cases b with
      | output t next' => exact .output (ih (Chain.output.inj h))
      | _ => cases h
  | input s next ih =>
      cases b with
      | input t next' => exact .input (ih (Chain.input.inj h))
      | _ => cases h
  | loop s body next ihBody ihNext =>
      cases b with
      | loop t body' next' =>
          obtain ⟨sameBody, sameNext⟩ := Chain.loop.inj h
          exact .loop (ihBody sameBody) (ihNext sameNext)
      | _ => cases h

namespace Linked

section
variable {table : NodeTable} {x y : Linked}

theorem KnownIn.tag_eq_of_key (hx : x.KnownIn table) (hy : y.KnownIn table) (keys : x.key = y.key) :
    x.tag = y.tag := by
  have found := hx x x.self_mem_parts
  rw [keys] at found
  exact Option.some.inj (found.symm.trans (hy y y.self_mem_parts))

/-- In one table equal chains have one tag. -/
theorem KnownIn.tag_eq (twins : Twins x y) (hx : x.KnownIn table) (hy : y.KnownIn table) :
    x.tag = y.tag := by
  induction twins with
  | stop s t => exact hx.tag_eq_of_key hy rfl
  | move offset _ ih =>
      have nexts := ih (hx.child List.mem_cons_self) (hy.child List.mem_cons_self)
      exact hx.tag_eq_of_key hy (congrArg (NodeKey.move offset) nexts)
  | add delta _ ih =>
      have nexts := ih (hx.child List.mem_cons_self) (hy.child List.mem_cons_self)
      exact hx.tag_eq_of_key hy (congrArg (NodeKey.add delta) nexts)
  | output _ ih =>
      have nexts := ih (hx.child List.mem_cons_self) (hy.child List.mem_cons_self)
      exact hx.tag_eq_of_key hy (congrArg NodeKey.output nexts)
  | input _ ih =>
      have nexts := ih (hx.child List.mem_cons_self) (hy.child List.mem_cons_self)
      exact hx.tag_eq_of_key hy (congrArg NodeKey.input nexts)
  | @loop s t body body' next next' _ _ ihBody ihNext =>
      have second {n m : Linked} : m ∈ [n, m] := List.mem_cons_of_mem _ List.mem_cons_self
      have bodies := ihBody (hx.child List.mem_cons_self) (hy.child List.mem_cons_self)
      have nexts := ihNext (hx.child second) (hy.child second)
      exact hx.tag_eq_of_key hy (congrArg₂ NodeKey.loop bodies nexts)

end

end Linked

namespace Program

/-- Two nodes of a lowered program are one exactly if they are equal as chains. -/
theorem tag_eq_iff_chain_eq (p : Program) {x y : Linked} (hx : x ∈ p.lower.parts)
    (hy : y ∈ p.lower.parts) : x.tag = y.tag ↔ x.chain = y.chain := by
  have lowers := lowerInto_lowers NodeTable.empty_sound p
  constructor
  · intro same
    rw [p.lower_coherent x hx y hy same]
  · intro same
    exact Linked.KnownIn.tag_eq (.of_chain same) (lowers.known.part hx) (lowers.known.part hy)

end Program

/-! ### Counting nodes -/

/-- All sub-chains, each as often as it occurs. -/
def Chain.parts : Chain → List Chain
  | .stop => [.stop]
  | .loop body next => .loop body next :: (body.parts ++ next.parts)
  | .move offset next => .move offset next :: next.parts
  | .add delta next => .add delta next :: next.parts
  | .output next => .output next :: next.parts
  | .input next => .input next :: next.parts

theorem Linked.map_chain_parts (l : Linked) : l.parts.map chain = l.chain.parts := by
  induction l with
  | stop tag => rfl
  | loop tag body next ihBody ihNext =>
      simp only [parts, List.map_cons, List.map_append, ihBody, ihNext, chain, Chain.parts]
  | move tag offset next ih | add tag delta next ih | output tag next ih | input tag next ih =>
      simp only [parts, List.map_cons, ih, chain, Chain.parts]

/-- Two views that tell the same elements apart show equally many. -/
theorem card_map_eq {α β γ : Type} [DecidableEq β] [DecidableEq γ] {f : α → β} {g : α → γ}
    {xs : List α} (alike : ∀ a ∈ xs, ∀ b ∈ xs, f a = f b ↔ g a = g b) :
    (xs.map f).toFinset.card = (xs.map g).toFinset.card := by
  induction xs with
  | nil => rfl
  | cons x xs ih =>
      have rest := ih fun a ha b hb =>
        alike a (List.mem_cons_of_mem _ ha) b (List.mem_cons_of_mem _ hb)
      have known : f x ∈ (xs.map f).toFinset ↔ g x ∈ (xs.map g).toFinset := by
        simp only [List.mem_toFinset, List.mem_map]
        constructor
        · rintro ⟨y, hy, same⟩
          exact ⟨y, hy, (alike y (List.mem_cons_of_mem _ hy) x List.mem_cons_self).mp same⟩
        · rintro ⟨y, hy, same⟩
          exact ⟨y, hy, (alike y (List.mem_cons_of_mem _ hy) x List.mem_cons_self).mpr same⟩
      simp only [List.map_cons, List.toFinset_cons, Finset.card_insert_eq_ite, known, rest]

theorem Linked.distinct_eq_card (l : Linked) : l.distinct = (l.parts.map tag).toFinset.card := by
  have members (t : Nat) : t ∈ (Std.HashSet.ofList l.tags).toList ↔ t ∈ l.tags := by
    rw [Std.HashSet.mem_toList, Std.HashSet.mem_ofList, List.contains_iff_mem]
  have nodup : (Std.HashSet.ofList l.tags).toList.Nodup :=
    Std.HashSet.distinct_toList.imp fun different => by simpa using different
  rw [distinct, ← Std.HashSet.length_toList, ← List.toFinset_card_of_nodup nodup, map_tag_parts]
  congr 1
  ext t
  rw [List.mem_toFinset, List.mem_toFinset, members]

/-- Lowering changes nothing but sharing, and shares all it can: the chain is the program's
instructions put one in front of the other, two nodes are equal chains exactly if they are one node,
and so there are as many nodes as there are different sub-chains. -/
theorem lowering_shares_equal_chains (p : Program) :
    p.lower.chain = p.chain ∧
      (∀ a ∈ p.lower.parts, ∀ b ∈ p.lower.parts,
        (a.chain = b.chain ↔ a.tag = b.tag) ∧ (a.tag = b.tag ↔ a = b)) ∧
      p.lower.distinct = p.chain.parts.toFinset.card := by
  refine ⟨p.lower_chain, ?_, ?_⟩
  · intro a ha b hb
    exact ⟨(p.tag_eq_iff_chain_eq ha hb).symm, p.lower_coherent a ha b hb, congrArg Linked.tag⟩
  · rw [Linked.distinct_eq_card, ← p.lower_chain, ← Linked.map_chain_parts]
    exact card_map_eq fun a ha b hb => p.tag_eq_iff_chain_eq ha hb

/-- Two loops with one body between them: the bodies are one node, the loops are two. -/
theorem twin_bodies_are_one_node :
    let p : Program := .loop (.loop .done .done) (.loop (.loop .done .done) .done)
    ∃ s t body body' rest, p.lower = .loop s body (.loop t body' rest) ∧
      (body ∈ p.lower.parts ∧ body' ∈ p.lower.parts ∧ body.chain = body'.chain) ∧
      body = body' ∧ s ≠ t ∧ p.lower.distinct = 4 := by
  intro p
  obtain ⟨chain, shared, count⟩ := lowering_shares_equal_chains p
  obtain ⟨s, t, body, body', rest, shape⟩ :
      ∃ s t body body' rest, p.lower = .loop s body (.loop t body' rest) := ⟨_, _, _, _, _, rfl⟩
  have outer : .loop s body (.loop t body' rest) ∈ p.lower.parts := shape ▸ p.lower.self_mem_parts
  have next : .loop t body' rest ∈ p.lower.parts :=
    Linked.child_mem_parts (by simp [shape, Linked.children])
  have inner : body ∈ p.lower.parts := Linked.child_mem_parts (by simp [shape, Linked.children])
  have inner' : body' ∈ p.lower.parts :=
    Linked.parts_subset next (Linked.child_mem_parts (by simp [Linked.children]))
  rw [shape] at chain
  obtain ⟨first, second⟩ := Chain.loop.inj chain
  have bodies : body.chain = body'.chain := first.trans (Chain.loop.inj second).1.symm
  refine ⟨s, t, body, body', rest, shape, ⟨inner, inner', bodies⟩, ?_, ?_, ?_⟩
  · have same := shared body inner body' inner'
    exact same.2.mp (same.1.mp bodies)
  · intro same
    have chains := (shared _ outer _ next).1.mpr same
    rw [chain, second] at chains
    exact absurd chains (by decide)
  · rw [count]
    decide

end TapeChain
