import Mathlib.Order.Bounds.Basic
import TapeChain.Proofs.Measure
import TapeChain.Proofs.Segments

/-! How long and how deep a program's chain is, said of its text. Depth is the greatest number of
brackets that are open at one point of the text. Length is one more than the instructions at all
levels, where a loop counts twice: for its node, and for the `stop` of its body. -/
namespace TapeChain

/-! ### Length -/

/-- Every occurrence of a node is counted, whichever nodes are one. -/
theorem Linked.length_tags (l : Linked) : l.tags.length = l.chain.nodes := by
  induction l with
  | stop tag => rfl
  | loop tag body next ihBody ihNext =>
      simp only [tags, chain, Chain.nodes, List.length_cons, List.length_append, ihBody, ihNext]
  | move tag offset next ih | add tag delta next ih | output tag next ih | input tag next ih =>
      simp only [tags, chain, Chain.nodes, List.length_cons, ih]

namespace Program

/-- The number of instructions at all levels. A loop is one, and so is each in its body. -/
def instructions : Program → Nat
  | .done => 0
  | .move _ rest | .add _ rest | .output rest | .input rest => rest.instructions + 1
  | .loop body rest => body.instructions + rest.instructions + 1

/-- The number of loops at all levels. -/
def loops : Program → Nat
  | .done => 0
  | .move _ rest | .add _ rest | .output rest | .input rest => rest.loops
  | .loop body rest => body.loops + rest.loops + 1

theorem nodes_chain (p : Program) : p.chain.nodes = 1 + p.instructions + p.loops := by
  induction p with
  | done => rfl
  | move offset rest ih | add delta rest ih | output rest ih | input rest ih =>
      simp only [chain, Chain.nodes, instructions, loops, ih]
      omega
  | loop body rest ihBody ihRest =>
      simp only [chain, Chain.nodes, instructions, loops, ihBody, ihRest]
      omega

/-- In the flat form an instruction is a token, and a loop has a closing bracket besides. -/
theorem countP_tokens (p : Program) : p.tokens.countP (· ≠ .closing) = p.instructions := by
  induction p with
  | done => rfl
  | move offset rest ih | add delta rest ih | output rest ih | input rest ih =>
      rw [tokens, List.countP_cons_of_pos (by simp), ih, instructions]
  | loop body rest ihBody ihRest =>
      rw [tokens, List.countP_cons_of_pos (by decide), List.countP_append,
        List.countP_cons_of_neg (by decide), ihBody, ihRest, instructions]

theorem count_opening_tokens (p : Program) : p.tokens.count .opening = p.loops := by
  induction p with
  | done => rfl
  | move offset rest ih | add delta rest ih | output rest ih | input rest ih =>
      rw [tokens, List.count_cons_of_ne (by simp), ih, loops]
  | loop body rest ihBody ihRest =>
      rw [tokens, List.count_cons_self, List.count_append, List.count_cons_of_ne (by decide), ihBody,
        ihRest, loops]

end Program

/-- Every opening bracket of a text is a token of its own. -/
theorem Token.count_opening_scanFrom (cs : List Char) :
    (scanFrom none cs).count .opening = cs.count '[' := by
  induction cs using text_induction with
  | nil => rfl
  | comment c cs h ih =>
      rw [scanFrom_comment h, ih, List.count_cons_of_ne (ne_bracket_of_comment h).1]
  | run a run cs filled steps stop ih =>
      have step : a.token (a.net run) ≠ .opening := by cases a <;> simp [Axis.token]
      have unopened : run.count '[' = 0 :=
        List.count_eq_zero_of_not_mem fun bracket => (Axis.ne_bracket (steps _ bracket)).1 rfl
      rw [scanFrom_run filled steps stop, List.count_cons_of_ne step, ih, List.count_append, unopened,
        Nat.zero_add]
  | output cs ih | input cs ih | closing cs ih =>
      rw [scanFrom_single rfl fun _ => rfl, List.count_cons_of_ne (by decide), ih,
        List.count_cons_of_ne (by decide)]
  | opening cs ih =>
      rw [scanFrom_single rfl fun _ => rfl, List.count_cons_self, ih, List.count_cons_self]

/-! ### Depth -/

/-- How many brackets are open, at any point of a text. -/
def openCounts (cs : List Char) : Set Nat := {d | ∃ u, u <+: cs ∧ u.count '[' = u.count ']' + d}

theorem isGreatest_openCounts_zero {cs : List Char} (unopened : cs.count '[' = 0) :
    IsGreatest (openCounts cs) 0 := by
  refine ⟨⟨[], List.nil_prefix, rfl⟩, ?_⟩
  rintro d ⟨u, front, count⟩
  have few := front.count_le '['
  omega

/-- Behind text that balances no other brackets are open than before it. -/
theorem Balanced.openCounts_append {w : List Char} (h : Balanced w) (cs : List Char) :
    openCounts (w ++ cs) = openCounts w ∪ openCounts cs := by
  have even := h.even
  ext d
  constructor
  · rintro ⟨u, ⟨rest, split⟩, count⟩
    rcases List.append_eq_append_iff.mp split with ⟨y, rfl, -⟩ | ⟨y, rfl, rfl⟩
    · exact .inl ⟨u, List.prefix_append u y, count⟩
    · simp only [List.count_append] at count
      exact .inr ⟨y, List.prefix_append y rest, by omega⟩
  · rintro (⟨u, front, count⟩ | ⟨u, front, count⟩)
    · exact ⟨u, front.trans (List.prefix_append w cs), count⟩
    · refine ⟨w ++ u, (List.prefix_append_right_inj w).mpr front, ?_⟩
      simp only [List.count_append]
      omega

/-- Text that balances and has `depth` brackets open at its deepest point. -/
structure Deep (cs : List Char) (depth : Nat) : Prop where
  balanced : Balanced cs
  deepest : IsGreatest (openCounts cs) depth

namespace Deep

variable {u v w : List Char} {c : Char} {m n : Nat}

theorem nil : Deep [] 0 := ⟨.nil, isGreatest_openCounts_zero rfl⟩

theorem plain (hopen : c ≠ '[') (hclose : c ≠ ']') : Deep [c] 0 := by
  refine ⟨.plain hopen hclose, isGreatest_openCounts_zero ?_⟩
  exact List.count_eq_zero_of_not_mem (by simp [Ne.symm hopen])

theorem append (hu : Deep u m) (hv : Deep v n) : Deep (u ++ v) (max m n) := by
  refine ⟨hu.balanced.append hv.balanced, ?_⟩
  rw [hu.balanced.openCounts_append]
  exact hu.deepest.union hv.deepest

/-- In front, text without brackets makes no difference. -/
theorem behind (hu : Deep u 0) (hv : Deep v n) : Deep (u ++ v) n := by
  have whole := hu.append hv
  rwa [Nat.zero_max] at whole

theorem run {a : Axis} {run : List Char} (steps : ∀ c ∈ run, a.has c) : Deep run 0 := by
  induction run with
  | nil => exact .nil
  | cons c run ih =>
      obtain ⟨hopen, hclose⟩ := Axis.ne_bracket (steps c List.mem_cons_self)
      exact (plain hopen hclose).behind (ih fun x hx => steps x (List.mem_cons_of_mem _ hx))

/-- Between brackets one more is open at every point. -/
theorem enclose (h : Deep w n) : Deep ('[' :: (w ++ [']'])) (n + 1) := by
  refine ⟨h.balanced.enclose, ?_, ?_⟩
  · obtain ⟨u, front, count⟩ := h.deepest.1
    refine ⟨'[' :: u, ?_, ?_⟩
    · exact (List.prefix_cons_inj '[').mpr (front.trans (List.prefix_append w _))
    · rw [List.count_cons_self, List.count_cons_of_ne (by decide), count, Nat.add_assoc]
  · rintro d ⟨u, front, count⟩
    rcases List.prefix_cons_iff.mp front with rfl | ⟨x, rfl, inside⟩
    · simp only [List.count_nil] at count
      omega
    rw [List.count_cons_self, List.count_cons_of_ne (by decide)] at count
    rcases List.prefix_concat_iff.mp inside with rfl | inside
    · -- behind the closing bracket
      have even := h.balanced.even
      have one : [']'].count ']' = 1 := rfl
      have zero : [']'].count '[' = 0 := rfl
      rw [List.count_append, List.count_append] at count
      omega
    · have ahead := h.balanced.ahead x inside
      have least : x.count '[' - x.count ']' ≤ n := h.deepest.2 ⟨x, inside, by omega⟩
      omega

end Deep

/-- What a text spells of a chain nests as the chain does. -/
theorem Reads.deep {cs rest : List Char} {c : Chain} (h : Reads cs c rest) :
    ∃ used, cs = used ++ rest ∧ Deep used c.nesting := by
  induction h with
  | finish => exact ⟨[], rfl, .nil⟩
  | closing rest => exact ⟨[], rfl, .nil⟩
  | @comment c _ _ _ comment _ ih =>
      obtain ⟨used, rfl, deep⟩ := ih
      obtain ⟨hopen, hclose⟩ := Token.ne_bracket_of_comment comment
      exact ⟨c :: used, rfl, (Deep.plain hopen hclose).behind deep⟩
  | @run a run _ _ _ _ steps _ _ ih =>
      obtain ⟨used, rfl, deep⟩ := ih
      refine ⟨run ++ used, (List.append_assoc _ _ _).symm, ?_⟩
      cases a <;> exact (Deep.run steps).behind deep
  | output _ ih =>
      obtain ⟨used, rfl, deep⟩ := ih
      exact ⟨'.' :: used, rfl, (Deep.plain (by decide) (by decide)).behind deep⟩
  | input _ ih =>
      obtain ⟨used, rfl, deep⟩ := ih
      exact ⟨',' :: used, rfl, (Deep.plain (by decide) (by decide)).behind deep⟩
  | loop _ _ ihBody ihNext =>
      obtain ⟨inner, rfl, body⟩ := ihBody
      obtain ⟨used, rfl, next⟩ := ihNext
      refine ⟨'[' :: (inner ++ [']']) ++ used, ?_, body.enclose.append next⟩
      simp

theorem Program.isGreatest_openCounts {text : String} {p : Program} (h : read text = .ok p) :
    IsGreatest (openCounts text.toList) p.chain.nesting := by
  obtain ⟨used, whole, deep⟩ := (reads_of_read h).deep
  rw [whole, List.append_nil]
  exact deep.deepest

/-- The measures that are computed with a list of pending chains are the structural ones: how deep
loops nest, and how many occurrences of nodes there are, however these are shared. Of text that
balances they can be told without reading it: the depth is the greatest number of brackets that are
open at one point, the length one more than the instructions at all levels and the loops, and the
instructions are the segments that spell a token other than a closing bracket. -/
theorem measures_are_structural :
    (∀ c : Chain, c.depth = c.nesting ∧ c.length = c.nodes) ∧
    (∀ l : Linked, l.chain.length = l.tags.length) ∧
    ∀ text : String, Balanced text.toList → ∃ p, Program.read text = .ok p ∧
      IsGreatest (openCounts text.toList) p.lower.chain.depth ∧
      p.lower.chain.length = 1 + p.instructions + p.loops ∧
      p.instructions = (segmentTokens text.toList).countP (· ≠ .closing) ∧
      p.loops = text.toList.count '[' := by
  refine ⟨fun c => ⟨c.depth_eq_nesting, c.length_eq_nodes⟩, ?_, ?_⟩
  · intro l
    rw [Chain.length_eq_nodes, l.length_tags]
  · intro text balanced
    have reads := Program.read_of_balanced balanced
    have flat := Program.tokens_ofTokens_scan ((Program.mismatch?_eq_none_iff text).mpr balanced)
    refine ⟨_, reads, ?_, ?_, ?_, ?_⟩
    · rw [Chain.depth_eq_nesting, Program.lower_chain]
      exact Program.isGreatest_openCounts reads
    · rw [Chain.length_eq_nodes, Program.lower_chain, Program.nodes_chain]
    · rw [← Program.countP_tokens, flat, Program.scan_eq_segmentTokens]
    · rw [← Program.count_opening_tokens, flat]
      exact Token.count_opening_scanFrom text.toList

/-- Two loops whose bodies are one node, with steps that cancel out and a comment in them. -/
theorem shared_bodies_measured :
    Balanced "[[+-]é]>[[+-]é]".toList ∧ ∃ p, Program.read "[[+-]é]>[[+-]é]" = .ok p ∧
      IsGreatest (openCounts "[[+-]é]>[[+-]é]".toList) p.lower.chain.depth ∧
      p.lower.chain.length = 1 + p.instructions + p.loops ∧
      p.instructions = (segmentTokens "[[+-]é]>[[+-]é]".toList).countP (· ≠ .closing) ∧
      p.loops = "[[+-]é]>[[+-]é]".toList.count '[' :=
  ⟨by decide, measures_are_structural.2.2 _ (by decide)⟩

end TapeChain
