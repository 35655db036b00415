import Mathlib.Data.List.Nodup
import TapeChain.Chain.Linked

/-! Node identities. In a chain as it stands in memory two nodes with one tag are one node. Lowering
keeps this by looking every node up in one table, and a chain read from text has no shared nodes at
all; neither changes the chain that is meant. -/
namespace TapeChain

namespace Linked

/-- All occurrences of nodes, each with everything below it. -/
def parts : Linked → List Linked
  | l@(.stop _) => [l]
  | l@(.loop _ body next) => l :: (body.parts ++ next.parts)
  | l@(.move _ _ next) => l :: next.parts
  | l@(.add _ _ next) => l :: next.parts
  | l@(.output _ next) => l :: next.parts
  | l@(.input _ next) => l :: next.parts

/-- Two nodes with one tag are one node. -/
def Coherent (l : Linked) : Prop := ∀ a ∈ l.parts, ∀ b ∈ l.parts, a.tag = b.tag → a = b

def children : Linked → List Linked
  | .stop _ => []
  | .loop _ body next => [body, next]
  | .move _ _ next => [next]
  | .add _ _ next => [next]
  | .output _ next => [next]
  | .input _ next => [next]

theorem self_mem_parts (l : Linked) : l ∈ l.parts := by
  cases l <;> exact List.mem_cons_self

theorem child_mem_parts {a l : Linked} (h : a ∈ l.children) : a ∈ l.parts := by
  cases l with
  | stop tag => cases h
  | loop tag body next =>
      rcases List.mem_pair.mp h with rfl | rfl
      · exact List.mem_cons_of_mem _ (List.mem_append_left _ a.self_mem_parts)
      · exact List.mem_cons_of_mem _ (List.mem_append_right _ a.self_mem_parts)
  | move tag offset next | add tag delta next | output tag next | input tag next =>
      rw [List.mem_singleton.mp h]
      exact List.mem_cons_of_mem _ next.self_mem_parts

theorem parts_subset {a l : Linked} (h : a ∈ l.parts) : a.parts ⊆ l.parts := by
  induction l with
  | stop tag =>
      rw [List.mem_singleton.mp h]
      exact List.Subset.refl _
  | loop tag body next ihBody ihNext =>
      rcases List.mem_cons.mp h with rfl | h
      · exact List.Subset.refl _
      · rcases List.mem_append.mp h with h | h
        · exact fun x hx => List.mem_cons_of_mem _ (List.mem_append_left _ (ihBody h hx))
        · exact fun x hx => List.mem_cons_of_mem _ (List.mem_append_right _ (ihNext h hx))
  | move tag offset next ih | add tag delta next ih | output tag next ih | input tag next ih =>
      rcases List.mem_cons.mp h with rfl | h
      · exact List.Subset.refl _
      · exact fun x hx => List.mem_cons_of_mem _ (ih h hx)

theorem parts_subset_of_child {a l : Linked} (h : a ∈ l.children) : a.parts ⊆ l.parts :=
  parts_subset (child_mem_parts h)

theorem map_tag_parts (l : Linked) : l.parts.map tag = l.tags := by
  induction l with
  | stop tag => rfl
  | loop tag body next ihBody ihNext =>
      simp only [parts, List.map_cons, List.map_append, ihBody, ihNext, tags, Linked.tag]
  | move tag offset next ih | add tag delta next ih | output tag next ih | input tag next ih =>
      simp only [parts, List.map_cons, ih, tags, Linked.tag]

/-! ### Chains without shared nodes -/

/-- Occurrences are numbered in reading order. -/
theorem freshFrom_spec (tag : Nat) (c : Chain) :
    (freshFrom tag c).1.tags = List.range' tag c.nodes ∧ (freshFrom tag c).2 = tag + c.nodes ∧
      (freshFrom tag c).1.chain = c := by
  induction c generalizing tag with
  | stop => exact ⟨rfl, rfl, rfl⟩
  | loop body next ihBody ihNext =>
      obtain ⟨bodyTags, bodyFree, bodyChain⟩ := ihBody (tag + 1)
      obtain ⟨nextTags, nextFree, nextChain⟩ := ihNext (tag + 1 + body.nodes)
      refine ⟨?_, ?_, ?_⟩
      · simp only [freshFrom, tags, bodyTags, bodyFree, nextTags, Chain.nodes, List.range'_succ,
          List.range'_append_1]
      · simp only [freshFrom, bodyFree, nextFree, Chain.nodes]
        omega
      · simp only [freshFrom, chain, bodyChain, bodyFree, nextChain]
  | move offset next ih | add delta next ih | output next ih | input next ih =>
      obtain ⟨nextTags, nextFree, nextChain⟩ := ih (tag + 1)
      refine ⟨?_, ?_, ?_⟩
      · simp only [freshFrom, tags, nextTags, Chain.nodes, List.range'_succ]
      · simp only [freshFrom, nextFree, Chain.nodes]
        omega
      · simp only [freshFrom, chain, nextChain]

@[simp] theorem fresh_chain (c : Chain) : (fresh c).chain = c := (freshFrom_spec 0 c).2.2

theorem fresh_tags_nodup (c : Chain) : ((fresh c).parts.map tag).Nodup := by
  rw [map_tag_parts, fresh, (freshFrom_spec 0 c).1]
  exact List.nodup_range'

theorem fresh_coherent (c : Chain) : (fresh c).Coherent := by
  intro a ha b hb same
  exact List.inj_on_of_nodup_map (fresh_tags_nodup c) ha hb same

/-- A node as the table of known nodes sees it. -/
def key : Linked → NodeKey
  | .stop _ => .stop
  | .loop _ body next => .loop body.tag next.tag
  | .move _ offset next => .move offset next.tag
  | .add _ delta next => .add delta next.tag
  | .output _ next => .output next.tag
  | .input _ next => .input next.tag

end Linked

/-! ### The table of known nodes -/

/-- Every key has a tag of its own, below the next free one. -/
structure NodeTable.Sound (table : NodeTable) : Prop where
  bound : ∀ {key : NodeKey} {tag : Nat}, table.known[key]? = some tag → tag < table.known.size
  injective : ∀ {key key' : NodeKey} {tag : Nat}, table.known[key]? = some tag →
    table.known[key']? = some tag → key = key'

/-- The later table knows all that the earlier one knows. -/
def NodeTable.Grows (table later : NodeTable) : Prop :=
  ∀ (key : NodeKey) (tag : Nat), table.known[key]? = some tag → later.known[key]? = some tag

theorem NodeTable.empty_sound : NodeTable.empty.Sound :=
  ⟨fun h => by simp only [empty, Std.HashMap.getElem?_empty, reduceCtorEq] at h,
    fun h => by simp only [empty, Std.HashMap.getElem?_empty, reduceCtorEq] at h⟩

theorem NodeTable.intern_spec {table : NodeTable} (sound : table.Sound) (key : NodeKey) :
    (table.intern key).2.Sound ∧ table.Grows (table.intern key).2 ∧
      (table.intern key).2.known[key]? = some (table.intern key).1 := by
  unfold NodeTable.intern
  split
  · next tag known => exact ⟨sound, fun _ _ h => h, known⟩
  · next new =>
      have absent : key ∉ table.known := by
        rw [Std.HashMap.mem_iff_isSome_getElem?, new]
        exact Bool.false_ne_true
      have size : (table.known.insert key table.known.size).size = table.known.size + 1 := by
        rw [Std.HashMap.size_insert, if_neg absent]
      have look (k : NodeKey) : (table.known.insert key table.known.size)[k]? =
          if key = k then some table.known.size else table.known[k]? := by
        simp only [Std.HashMap.getElem?_insert, beq_iff_eq]
      refine ⟨⟨?_, ?_⟩, ?_, ?_⟩
      · intro k tag h
        simp only [look, size] at h ⊢
        split at h
        · next => cases h; exact Nat.lt_succ_self _
        · next => exact Nat.lt_succ_of_lt (sound.bound h)
      · intro k k' tag h h'
        simp only [look] at h h'
        -- A tag that stood in the old table is below the new one.
        split at h <;> split at h'
        · next same same' => exact same.symm.trans same'
        · next => cases h; exact absurd (sound.bound h') (Nat.lt_irrefl _)
        · next => cases h'; exact absurd (sound.bound h) (Nat.lt_irrefl _)
        · exact sound.injective h h'
      · intro k tag h
        simp only [look]
        split
        · next same => subst same; rw [new] at h; cases h
        · exact h
      · simp only [look, if_true]

namespace Linked

/-- Every node of the chain stands in the table. -/
def KnownIn (table : NodeTable) (l : Linked) : Prop :=
  ∀ a ∈ l.parts, table.known[a.key]? = some a.tag

theorem KnownIn.part {table : NodeTable} {a l : Linked} (h : l.KnownIn table) (ha : a ∈ l.parts) :
    a.KnownIn table := fun x hx => h x (parts_subset ha hx)

theorem KnownIn.child {table : NodeTable} {a l : Linked} (h : l.KnownIn table)
    (ha : a ∈ l.children) : a.KnownIn table := h.part (child_mem_parts ha)

theorem KnownIn.key_eq {table : NodeTable} (sound : table.Sound) {a b : Linked}
    (ha : a.KnownIn table) (hb : b.KnownIn table) (same : a.tag = b.tag) : a.key = b.key :=
  sound.injective (ha a a.self_mem_parts) (same ▸ hb b b.self_mem_parts)

/-- In a table where keys and tags determine each other, a tag determines all below its node. -/
theorem KnownIn.eq_of_tag {table : NodeTable} (sound : table.Sound) {a b : Linked}
    (ha : a.KnownIn table) (hb : b.KnownIn table) (same : a.tag = b.tag) : a = b := by
  have keys := ha.key_eq sound hb same
  induction a generalizing b with
  | stop tag =>
      cases b with
      | stop tag' => exact congrArg Linked.stop same
      | _ => cases keys
  | loop tag body next ihBody ihNext =>
      cases b with
      | loop tag' body' next' =>
          obtain ⟨sameBody, sameNext⟩ := NodeKey.loop.inj keys
          have hbody := ha.child (a := body) List.mem_cons_self
          have hbody' := hb.child (a := body') List.mem_cons_self
          have hnext := ha.child (a := next) (List.mem_cons_of_mem _ List.mem_cons_self)
          have hnext' := hb.child (a := next') (List.mem_cons_of_mem _ List.mem_cons_self)
          cases same
          rw [ihBody hbody hbody' sameBody (hbody.key_eq sound hbody' sameBody),
            ihNext hnext hnext' sameNext (hnext.key_eq sound hnext' sameNext)]
      | _ => cases keys
  | move tag offset next ih =>
      cases b with
      | move tag' offset' next' =>
          obtain ⟨rfl, sameNext⟩ := NodeKey.move.inj keys
          have hnext := ha.child (a := next) List.mem_cons_self
          have hnext' := hb.child (a := next') List.mem_cons_self
          cases same
          rw [ih hnext hnext' sameNext (hnext.key_eq sound hnext' sameNext)]
      | _ => cases keys
  | add tag delta next ih =>
      cases b with
      | add tag' delta' next' =>
          obtain ⟨rfl, sameNext⟩ := NodeKey.add.inj keys
          have hnext := ha.child (a := next) List.mem_cons_self
          have hnext' := hb.child (a := next') List.mem_cons_self
          cases same
          rw [ih hnext hnext' sameNext (hnext.key_eq sound hnext' sameNext)]
      | _ => cases keys
  | output tag next ih =>
      cases b with
      | output tag' next' =>
          have sameNext := NodeKey.output.inj keys
          have hnext := ha.child (a := next) List.mem_cons_self
          have hnext' := hb.child (a := next') List.mem_cons_self
          cases same
          rw [ih hnext hnext' sameNext (hnext.key_eq sound hnext' sameNext)]
      | _ => cases keys
  | input tag next ih =>
      cases b with
      | input tag' next' =>
          have sameNext := NodeKey.input.inj keys
          have hnext := ha.child (a := next) List.mem_cons_self
          have hnext' := hb.child (a := next') List.mem_cons_self
          cases same
          rw [ih hnext hnext' sameNext (hnext.key_eq sound hnext' sameNext)]
      | _ => cases keys

theorem KnownIn.coherent {table : NodeTable} (sound : table.Sound) {l : Linked}
    (h : l.KnownIn table) : l.Coherent :=
  fun _ ha _ hb same => (h.part ha).eq_of_tag sound (h.part hb) same

end Linked

/-! ### Lowering -/

namespace Program

/-- The chain that a program means: every instruction in front of the rest. -/
def chain : Program → Chain
  | .done => .stop
  | .move offset rest => .move (.encode offset) rest.chain
  | .add delta rest => .add (.encode delta) rest.chain
  | .output rest => .output rest.chain
  | .input rest => .input rest.chain
  | .loop body rest => .loop body.chain rest.chain

theorem lowerInto_chain (table : NodeTable) (p : Program) :
    (lowerInto table p).1.chain = p.chain := by
  induction p generalizing table with
  | done => rfl
  | loop body rest ihBody ihRest =>
      simp only [lowerInto, Linked.chain, chain, ihBody, ihRest]
  | move offset rest ih | add delta rest ih | output rest ih | input rest ih =>
      simp only [lowerInto, Linked.chain, chain, ih]

@[simp] theorem lower_chain (p : Program) : p.lower.chain = p.chain := lowerInto_chain .empty p

/-- What lowering into a table gives: a table that is still sound, and a chain known in it. -/
structure Lowers (table : NodeTable) (result : Linked × NodeTable) : Prop where
  sound : result.2.Sound
  grows : table.Grows result.2
  known : result.1.KnownIn result.2

theorem Lowers.node {table middle : NodeTable} (grows : table.Grows middle) (sound : middle.Sound)
    {l : Linked} (tagged : l.tag = (middle.intern l.key).1)
    (known : ∀ a ∈ l.parts, a = l ∨ middle.known[a.key]? = some a.tag) :
    Lowers table (l, (middle.intern l.key).2) := by
  obtain ⟨sound', grows', found⟩ := NodeTable.intern_spec sound l.key
  refine ⟨sound', fun key tag h => grows' _ _ (grows key tag h), ?_⟩
  intro a ha
  rcases known a ha with rfl | h
  · rw [tagged]
    exact found
  · exact grows' _ _ h

theorem lowerInto_lowers {table : NodeTable} (sound : table.Sound) (p : Program) :
    Lowers table (lowerInto table p) := by
  induction p generalizing table with
  | done =>
      exact Lowers.node (l := .stop _) (fun _ _ h => h) sound rfl
        (fun a ha => .inl (List.mem_singleton.mp ha))
  | loop body rest ihBody ihRest =>
      have hrest := ihRest sound
      have hbody := ihBody hrest.sound
      refine Lowers.node (l := .loop _ _ _) (fun _ _ h => hbody.grows _ _ (hrest.grows _ _ h))
        hbody.sound rfl ?_
      intro a ha
      rcases List.mem_cons.mp ha with rfl | ha
      · exact .inl rfl
      · rcases List.mem_append.mp ha with ha | ha
        · exact .inr (hbody.known a ha)
        · exact .inr (hbody.grows _ _ (hrest.known a ha))
  | move offset rest ih =>
      exact Lowers.node (l := .move _ _ _) (ih sound).grows (ih sound).sound rfl
        (fun a ha => (List.mem_cons.mp ha).imp_right ((ih sound).known a))
  | add delta rest ih =>
      exact Lowers.node (l := .add _ _ _) (ih sound).grows (ih sound).sound rfl
        (fun a ha => (List.mem_cons.mp ha).imp_right ((ih sound).known a))
  | output rest ih =>
      exact Lowers.node (l := .output _ _) (ih sound).grows (ih sound).sound rfl
        (fun a ha => (List.mem_cons.mp ha).imp_right ((ih sound).known a))
  | input rest ih =>
      exact Lowers.node (l := .input _ _) (ih sound).grows (ih sound).sound rfl
        (fun a ha => (List.mem_cons.mp ha).imp_right ((ih sound).known a))

theorem lower_coherent (p : Program) : p.lower.Coherent :=
  have h := lowerInto_lowers NodeTable.empty_sound p
  h.known.coherent h.sound

end Program

end TapeChain
