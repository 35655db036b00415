import Mathlib.Data.List.Forall2
import TapeChain.Artifact.Build
import TapeChain.Proofs.Terms

/-! The artifact language. A text describes a chain exactly if it is a spelling of that chain, and no
text is a spelling of two chains. -/
namespace TapeChain

/-- The words that spell an operand: its eight digits, or a decimal numeral of a 32-bit value. -/
inductive Operand.Words : Operand → List Word → Prop
  | digits (o : Operand) : Words o (Word.node "Int" (o.digits.map fun d => [.name d.name]))
  | numeral (n : Numeral) : n.digits.length ≤ 4300 → -2147483648 ≤ n.value →
      n.value ≤ 2147483647 → Words (.encode n.value) [.number n]

inductive Chain.Words : Chain → List Word → Prop
  | stop : Words .stop [.name "Stop"]
  | loop {body next u v} : Words body u → Words next v →
      Words (.loop body next) (Word.node "Loop" [u, v])
  | move {offset next u v} : offset.Words u → Words next v →
      Words (.move offset next) (Word.node "AddPointer" [u, v])
  | add {delta next u v} : delta.Words u → Words next v →
      Words (.add delta next) (Word.node "AddData" [u, v])
  | output {next v} : Words next v → Words (.output next) (Word.node "OutputData" [v])
  | input {next v} : Words next v → Words (.input next) (Word.node "InputData" [v])

/-- A text is spaced out of words that spell the chain. -/
def Chain.SpelledBy (c : Chain) (text : String) : Prop := ∃ ws, c.Words ws ∧ Spaced ws text.toList

def Value.Words : Value → List Word → Prop
  | .digit d, ws => ws = [.name d.name]
  | .operand o, ws => o.Words ws
  | .chain c, ws => c.Words ws
  | .plain _, _ => False

section Results

variable {ε ε' α β : Type}

theorem mapError_eq_ok_iff {f : ε → ε'} {x : Except ε α} {a : α} :
    x.mapError f = .ok a ↔ x = .ok a := by
  cases x <;> simp [Except.mapError]

theorem mapError_eq_error_iff {f : ε → ε'} {x : Except ε α} {e : ε'} :
    x.mapError f = .error e ↔ ∃ e', x = .error e' ∧ f e' = e := by
  cases x <;> simp [Except.mapError]

theorem bind_eq_ok_iff {x : Except ε α} {f : α → Except ε β} {b : β} :
    (x >>= f) = .ok b ↔ ∃ a, x = .ok a ∧ f a = .ok b := by
  cases x <;> simp [bind, Except.bind]

theorem bind_eq_error_iff {x : Except ε α} {f : α → Except ε β} {e : ε} :
    (x >>= f) = .error e ↔ x = .error e ∨ ∃ a, x = .ok a ∧ f a = .error e := by
  cases x <;> simp [bind, Except.bind]

end Results

/-! ### Symbols -/

namespace Symbol

theorem ofName?_name (s : Symbol) : ofName? s.name = some s := by
  cases s with
  | digit d => revert d; decide
  | operand => decide
  | stop => decide
  | loop => decide
  | move => decide
  | add => decide
  | output => decide
  | input => decide

theorem isName_name (s : Symbol) : Word.IsName s.name.toList := by
  cases s with
  | digit d => revert d; decide
  | operand => decide
  | stop => decide
  | loop => decide
  | move => decide
  | add => decide
  | output => decide
  | input => decide

end Symbol

theorem Symbol.resolve_eq_ok_iff {name : String} {s : Symbol} :
    resolve name = .ok s ↔ s.name = name := by
  constructor
  · intro h
    unfold resolve at h
    split at h
    next s' found =>
      cases h
      have named := List.find?_some found
      exact of_decide_eq_true named
    next => cases h
  · rintro rfl
    rw [resolve, s.ofName?_name]

theorem joinSymbol_eq_ok_iff {name : String} {vs : List Value} {v : Value} :
    joinSymbol name vs = .ok v ↔ ∃ s : Symbol, s.name = name ∧ s.build vs = .ok v := by
  simp only [joinSymbol, bind_eq_ok_iff, mapError_eq_ok_iff, Symbol.resolve_eq_ok_iff]

theorem Symbol.join_of_build {s : Symbol} {vs : List Value} {v : Value} (h : s.build vs = .ok v) :
    s.join vs = .ok v := by
  unfold build at h
  split at h
  · cases h
  · split at h
    · cases h
    · exact h

theorem Symbol.join_operand {vs : List Value} {v : Value} (h : join .operand vs = .ok v) :
    ∃ o : Operand, vs = o.digits.map .digit ∧ v = .operand o := by
  -- eight digits, one after the other, and then nothing
  iterate 8
    rcases vs with _ | ⟨_ | _ | _ | _, vs⟩
    any_goals cases h
  rcases vs with _ | ⟨_, _⟩
  all_goals cases h
  exact ⟨⟨_, _, _, _, _, _, _, _⟩, rfl, rfl⟩

theorem Value.words_digits {ds : List HexDigit} {wss : List (List Word)}
    (h : List.Forall₂ Value.Words (ds.map .digit) wss) : wss = ds.map fun d => [.name d.name] := by
  induction ds generalizing wss with
  | nil =>
      cases h
      rfl
  | cons d ds ih =>
      cases h with
      | cons first others => rw [first, ih others, List.map_cons]

/-- Joined values are spelled by the words of the symbol and its arguments. -/
theorem Symbol.words_of_join {s : Symbol} {vs : List Value} {v : Value} (h : s.join vs = .ok v) :
    (vs = [] ∧ v.Words [.name s.name]) ∨
      (vs ≠ [] ∧ ∀ wss, List.Forall₂ Value.Words vs wss → v.Words (Word.node s.name wss)) := by
  cases s with
  | digit d =>
      rcases vs with _ | ⟨_, _⟩
      all_goals cases h
      exact .inl ⟨rfl, rfl⟩
  | stop =>
      rcases vs with _ | ⟨_, _⟩
      all_goals cases h
      exact .inl ⟨rfl, .stop⟩
  | operand =>
      obtain ⟨o, rfl, rfl⟩ := join_operand h
      refine .inr ⟨List.cons_ne_nil _ _, fun wss spelled => ?_⟩
      rw [Value.words_digits spelled]
      exact .digits o
  | loop =>
      rcases vs with _ | ⟨_ | _ | body | _, _ | ⟨_ | _ | next | _, _ | ⟨_, _⟩⟩⟩
      all_goals cases h
      refine .inr ⟨List.cons_ne_nil _ _, ?_⟩
      rintro _ (_ | ⟨hu, _ | ⟨hv, ⟨⟩⟩⟩)
      exact .loop hu hv
  | move =>
      rcases vs with _ | ⟨_ | offset | _ | _, _ | ⟨_ | _ | next | _, _ | ⟨_, _⟩⟩⟩
      all_goals cases h
      refine .inr ⟨List.cons_ne_nil _ _, ?_⟩
      rintro _ (_ | ⟨hu, _ | ⟨hv, ⟨⟩⟩⟩)
      exact .move hu hv
  | add =>
      rcases vs with _ | ⟨_ | delta | _ | _, _ | ⟨_ | _ | next | _, _ | ⟨_, _⟩⟩⟩
      all_goals cases h
      refine .inr ⟨List.cons_ne_nil _ _, ?_⟩
      rintro _ (_ | ⟨hu, _ | ⟨hv, ⟨⟩⟩⟩)
      exact .add hu hv
  | output =>
      rcases vs with _ | ⟨_ | _ | next | _, _ | ⟨_, _⟩⟩
      all_goals cases h
      refine .inr ⟨List.cons_ne_nil _ _, ?_⟩
      rintro _ (_ | ⟨hu, ⟨⟩⟩)
      exact .output hu
  | input =>
      rcases vs with _ | ⟨_ | _ | next | _, _ | ⟨_, _⟩⟩
      all_goals cases h
      refine .inr ⟨List.cons_ne_nil _ _, ?_⟩
      rintro _ (_ | ⟨hu, ⟨⟩⟩)
      exact .input hu

/-! ### What is built is spelled -/

theorem Operand.words_of_ofLiteral {n : Numeral} {o : Operand}
    (h : Operand.ofLiteral (String.ofList n.chars) = .ok o) : o.Words [.number n] := by
  obtain ⟨value, read, fits⟩ := bind_eq_ok_iff.mp h
  rw [mapError_eq_ok_iff, n.readInteger_chars] at read
  split at read
  · cases read
  next few =>
    cases read
    split at fits
    next range =>
      cases fits
      exact .numeral n (Nat.le_of_not_lt few) range.1 range.2
    next => cases fits

mutual

theorem Term.words_of_build : (t : Term) → t.Proper → (∀ w ∈ t.words, w.Legal) →
    ∀ {depth : Nat} {v : Value}, t.build depth = .ok v → v.Words t.words
  | .leaf name, _, _, depth, v, h => by
      rw [Term.build, atDepth, mapError_eq_ok_iff] at h
      obtain ⟨s, rfl, built⟩ := joinSymbol_eq_ok_iff.mp h
      rcases Symbol.words_of_join (Symbol.join_of_build built) with ⟨_, spelled⟩ | ⟨present, _⟩
      · exact spelled
      · exact absurd rfl present
  | .literal text, _, legal, depth, v, h => by
      obtain ⟨n, spelled⟩ := legal _ List.mem_cons_self
      have same : text = String.ofList n.chars := by rw [← spelled, String.ofList_toList]
      subst same
      rw [Term.build, atDepth, mapError_eq_ok_iff] at h
      cases read : Operand.ofLiteral (String.ofList n.chars) with
      | error fault =>
          rw [read] at h
          cases h
      | ok o =>
          rw [read] at h
          cases h
          exact Operand.words_of_ofLiteral read
  | .node name args, proper, legal, depth, v, h => by
      rw [Term.build] at h
      split at h
      next => cases h
      next values inner =>
        rw [atDepth, mapError_eq_ok_iff] at h
        have spelled := args.words_of_build proper.2 (Word.legal_node_iff.mp legal).2 inner
        obtain ⟨s, rfl, built⟩ := joinSymbol_eq_ok_iff.mp h
        rcases Symbol.words_of_join (Symbol.join_of_build built) with ⟨rfl, _⟩ | ⟨_, words⟩
        · cases args with
          | nil => exact absurd rfl proper.1
          | cons t rest => cases spelled
        · exact words _ spelled

theorem Args.words_of_build : (args : Args) → args.Proper → (∀ u ∈ args.words, ∀ w ∈ u, w.Legal) →
    ∀ {depth : Nat} {vs : List Value}, args.build depth = .ok vs →
      List.Forall₂ Value.Words vs args.words
  | .nil, _, _, _, _, h => by
      cases h
      exact .nil
  | .cons t rest, proper, legal, depth, vs, h => by
      obtain ⟨first, others⟩ := List.forall_mem_cons.mp legal
      rw [Args.build] at h
      split at h
      next value values here later =>
        cases h
        exact .cons (t.words_of_build proper.1 first here)
          (rest.words_of_build proper.2 others later)
      all_goals cases h

end

/-! ### What is spelled is built -/

/-- Legal words are those of a proper term that is built to the value. -/
def Value.Described (v : Value) (ws : List Word) : Prop :=
  (∀ w ∈ ws, w.Legal) ∧ ∃ t : Term, t.words = ws ∧ t.Proper ∧ ∀ depth, t.build depth = .ok v

namespace Value.Described

theorem leaf {s : Symbol} {v : Value} (h : s.build [] = .ok v) : v.Described [.name s.name] := by
  refine ⟨?_, .leaf s.name, rfl, trivial, ?_⟩
  · rintro w (_ | ⟨_, ⟨⟩⟩)
    exact s.isName_name
  · intro depth
    rw [Term.build, atDepth, mapError_eq_ok_iff]
    exact joinSymbol_eq_ok_iff.mpr ⟨s, rfl, h⟩

theorem arguments {vs : List Value} {wss : List (List Word)} (h : List.Forall₂ Described vs wss) :
    (∀ u ∈ wss, ∀ w ∈ u, w.Legal) ∧
      ∃ args : Args, args.words = wss ∧ args.Proper ∧ ∀ depth, args.build depth = .ok vs := by
  induction h with
  | nil => exact ⟨fun u mem => absurd mem List.not_mem_nil, .nil, rfl, trivial, fun _ => rfl⟩
  | cons first _ ih =>
      obtain ⟨legal, t, rfl, proper, built⟩ := first
      obtain ⟨legal', args, rfl, proper', built'⟩ := ih
      refine ⟨List.forall_mem_cons.mpr ⟨legal, legal'⟩, .cons t args, rfl, ⟨proper, proper'⟩, ?_⟩
      intro depth
      rw [Args.build, built, built']

theorem node {s : Symbol} {vs : List Value} {v : Value} {wss : List (List Word)}
    (h : s.build vs = .ok v) (present : vs ≠ []) (described : List.Forall₂ Described vs wss) :
    v.Described (Word.node s.name wss) := by
  obtain ⟨legal, args, rfl, proper, built⟩ := arguments described
  refine ⟨Word.legal_node_iff.mpr ⟨s.isName_name, legal⟩, .node s.name args, rfl, ⟨?_, proper⟩, ?_⟩
  · rintro rfl
    cases described
    exact present rfl
  · intro depth
    rw [Term.build, built]
    dsimp only
    rw [atDepth, mapError_eq_ok_iff]
    exact joinSymbol_eq_ok_iff.mpr ⟨s, rfl, h⟩

theorem digit (d : HexDigit) : (Value.digit d).Described [.name d.name] :=
  leaf (s := .digit d) rfl

theorem operand {o : Operand} {ws : List Word} (h : o.Words ws) : (Value.operand o).Described ws := by
  cases h with
  | digits =>
      have digits : List.Forall₂ Described (o.digits.map .digit)
          (o.digits.map fun d => [.name d.name]) := by
        rw [List.forall₂_map_left_iff, List.forall₂_map_right_iff, List.forall₂_same]
        exact fun d _ => digit d
      exact node (s := .operand) rfl (List.cons_ne_nil _ _) digits
  | numeral n few low high =>
      refine ⟨?_, .literal (String.ofList n.chars), rfl, trivial, ?_⟩
      · rintro w (_ | ⟨_, ⟨⟩⟩)
        exact Word.legal_number n
      · intro depth
        have read : Operand.ofLiteral (String.ofList n.chars) = .ok (.encode n.value) := by
          refine bind_eq_ok_iff.mpr ⟨n.value, ?_, if_pos ⟨low, high⟩⟩
          rw [mapError_eq_ok_iff, n.readInteger_chars, if_neg (Nat.not_lt.mpr few)]
        rw [Term.build, atDepth, mapError_eq_ok_iff, read]
        rfl

theorem chain {c : Chain} {ws : List Word} (h : c.Words ws) : (Value.chain c).Described ws := by
  induction h with
  | stop => exact leaf (s := .stop) rfl
  | loop _ _ body next =>
      exact node (s := .loop) rfl (List.cons_ne_nil _ _) (.cons body (.cons next .nil))
  | move offset _ next =>
      exact node (s := .move) rfl (List.cons_ne_nil _ _) (.cons (operand offset) (.cons next .nil))
  | add delta _ next =>
      exact node (s := .add) rfl (List.cons_ne_nil _ _) (.cons (operand delta) (.cons next .nil))
  | output _ next => exact node (s := .output) rfl (List.cons_ne_nil _ _) (.cons next .nil)
  | input _ next => exact node (s := .input) rfl (List.cons_ne_nil _ _) (.cons next .nil)

end Value.Described

/-! ### The artifact language -/

theorem Chain.ofText_eq_ok_iff_build {text : String} {c : Chain} :
    Chain.ofText text = .ok c ↔ ∃ t, Term.read text = .ok t ∧ t.build 0 = .ok (.chain c) := by
  have chains (v : Value) : v.toChain = .ok c ↔ v = .chain c := by
    cases v <;> simp [Value.toChain]
  simp only [ofText, bind_eq_ok_iff, mapError_eq_ok_iff, chains, exists_eq_right]

theorem Chain.spelledBy_of_ofText {text : String} {c : Chain} (h : Chain.ofText text = .ok c) :
    c.SpelledBy text := by
  obtain ⟨t, read, built⟩ := ofText_eq_ok_iff_build.mp h
  obtain ⟨proper, spaced, legal⟩ := Term.found_of_read read
  exact ⟨t.words, t.words_of_build proper legal built, spaced⟩

theorem Chain.ofText_of_words {text : String} {c : Chain} {ws : List Word} (h : c.Words ws)
    (spaced : Spaced ws text.toList) : Chain.ofText text = .ok c := by
  obtain ⟨legal, t, rfl, proper, built⟩ := Value.Described.chain h
  exact ofText_eq_ok_iff_build.mpr ⟨t, Term.read_of_found proper ⟨spaced, legal⟩, built 0⟩

/-- A text is read as a chain exactly if it is a spelling of that chain, and no text is a spelling of
two different chains. -/
theorem ofText_eq_ok_iff_spelledBy (text : String) (c : Chain) :
    (Chain.ofText text = .ok c ↔ c.SpelledBy text) ∧
      ∀ c', c.SpelledBy text → c'.SpelledBy text → c = c' := by
  refine ⟨⟨Chain.spelledBy_of_ofText, ?_⟩, ?_⟩
  · rintro ⟨ws, words, spaced⟩
    exact Chain.ofText_of_words words spaced
  · rintro c' ⟨ws, words, spaced⟩ ⟨ws', words', spaced'⟩
    have read := Chain.ofText_of_words words spaced
    rw [Chain.ofText_of_words words' spaced'] at read
    cases read
    rfl

/-- A signed numeral with a leading zero, and blanks before, between and behind the words. -/
theorem spaced_loop_spelledBy :
    (Chain.loop .stop (.add (.encode 7) .stop)).SpelledBy " Loop<Stop ,\tAddData<+07,Stop>>\n" ∧
      Chain.ofText " Loop<Stop ,\tAddData<+07,Stop>>\n" =
        .ok (.loop .stop (.add (.encode 7) .stop)) ∧
      ∀ c' : Chain, c'.SpelledBy " Loop<Stop ,\tAddData<+07,Stop>>\n" →
        Chain.loop .stop (.add (.encode 7) .stop) = c' := by
  have spelled : (Chain.loop .stop (.add (.encode 7) .stop)).SpelledBy
      " Loop<Stop ,\tAddData<+07,Stop>>\n" := by
    have letters : " Loop<Stop ,\tAddData<+07,Stop>>\n".toList =
        ' ' :: ("Loop".toList ++ ("<".toList ++ ("Stop".toList ++ ' ' :: (",".toList ++ '\t' ::
          ("AddData".toList ++ ("<".toList ++ ((String.ofList ['+', '0', '7']).toList ++
            (",".toList ++ ("Stop".toList ++ (">".toList ++ (">".toList ++ ['\n']))))))))))) := by
      decide
    refine ⟨_, .loop .stop (.add (.numeral ((Numeral.single .plus '0' rfl).push '7' rfl) ?_ ?_ ?_)
      .stop), ?_⟩
    · decide
    · decide
    · decide
    · rw [letters]
      exact .blank (by decide) (.word (.word (.word (.blank (by decide) (.word (.blank (by decide)
        (.word (.word (.word (.word (.word (.word (.word (.blank (by decide) .nil))))))))))))))
  obtain ⟨exactly, unique⟩ := ofText_eq_ok_iff_spelledBy " Loop<Stop ,\tAddData<+07,Stop>>\n"
    (.loop .stop (.add (.encode 7) .stop))
  exact ⟨spelled, exactly.mpr spelled, fun c' other => unique c' spelled other⟩

end TapeChain
