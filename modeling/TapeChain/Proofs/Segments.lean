import Mathlib.Data.List.SplitBy
import TapeChain.Proofs.Brackets

/-! The tokens of a program, said without reading it: text falls into its longest runs of steps and
its other characters, and each segment spells one token or none. Text that balances reads as the one
tree whose flat form is the tokens of its segments. -/
namespace TapeChain

/-- Neighbours in one run: both move the pointer or both change the data. -/
def Axis.joins (c d : Char) : Bool :=
  (Axis.pointer.has c && Axis.pointer.has d) || (Axis.data.has c && Axis.data.has d)

/-- The longest runs of steps, and every other character by itself. -/
def segments (cs : List Char) : List (List Char) := cs.splitBy Axis.joins

/-- What a character that is no step spells by itself. -/
def Token.alone? : Char → Option Token
  | '.' => some .output
  | ',' => some .input
  | '[' => some .opening
  | ']' => some .closing
  | _ => none

/-- The token that a segment spells. All its characters are of one kind, so the first one tells. -/
def Token.ofSegment? : List Char → Option Token
  | [] => none
  | c :: cs =>
    if Axis.pointer.has c then some (.move (Axis.pointer.net (c :: cs)))
    else if Axis.data.has c then some (.add (Axis.data.net (c :: cs)))
    else alone? c

def segmentTokens (cs : List Char) : List Token := (segments cs).filterMap Token.ofSegment?

/-- Steps that cancel out are a token still, and a comment keeps two runs apart. -/
example : segmentTokens "><+é-,[.]>>".toList =
    [.move 0, .add 1, .add (-1), .input, .opening, .output, .closing, .move 2] := by
  decide

namespace Axis

variable {a : Axis} {c d : Char} {run cs : List Char}

theorem joins_iff : joins c d = true ↔ ∃ a : Axis, a.has c ∧ a.has d := by
  simp only [joins, Bool.or_eq_true, Bool.and_eq_true]
  constructor
  · rintro (both | both)
    · exact ⟨.pointer, both⟩
    · exact ⟨.data, both⟩
  · rintro ⟨_ | _, both⟩
    · exact .inl both
    · exact .inr both

theorem has_unique {b : Axis} (ha : a.has c) (hb : b.has c) : a = b := by
  rcases has_iff.mp ha with rfl | rfl <;> revert hb <;> cases a <;> cases b <;> decide

/-- A run that the text does not go on with is a segment. -/
theorem segments_run (filled : run ≠ []) (steps : ∀ c ∈ run, a.has c) (stop : a.Ends cs) :
    segments (run ++ cs) = run :: segments cs := by
  have apart : ∀ x ∈ run.getLast?, ∀ y ∈ cs.head?, joins x y = false := by
    intro x hx y hy
    rw [Bool.eq_false_iff]
    intro joined
    obtain ⟨b, hb, next⟩ := joins_iff.mp joined
    have same : b = a := has_unique hb (steps x (List.mem_of_getLast? hx))
    exact stop y hy (same ▸ next)
  have whole : run.IsChain fun x y => joins x y = true := by
    refine (List.pairwise_of_forall_mem_list ?_).isChain
    intro x hx y hy
    exact joins_iff.mpr ⟨a, steps x hx, steps y hy⟩
  rw [segments, List.splitBy_append apart, List.splitBy_of_isChain filled whole]
  rfl

/-- A character that is no step is a segment by itself. -/
theorem segments_single (other : ∀ a : Axis, ¬ a.has c) (cs : List Char) :
    segments (c :: cs) = [c] :: segments cs := by
  have apart : ∀ x ∈ [c].getLast?, ∀ y ∈ cs.head?, joins x y = false := by
    intro x hx y _
    rw [Bool.eq_false_iff]
    intro joined
    obtain ⟨a, ha, -⟩ := joins_iff.mp joined
    cases hx
    exact other a ha
  exact List.splitBy_append apart

theorem ofSegment?_run (filled : run ≠ []) (steps : ∀ c ∈ run, a.has c) :
    Token.ofSegment? run = some (a.token (a.net run)) := by
  cases run with
  | nil => exact absurd rfl filled
  | cons c run =>
      have hc := steps c List.mem_cons_self
      cases a with
      | pointer => simp only [Token.ofSegment?, hc, if_true, token]
      | data =>
          have other : ¬ Axis.pointer.has c := fun h => absurd (has_unique h hc) (by decide)
          simp only [Token.ofSegment?, if_neg other, hc, if_true, token]

end Axis

namespace Token

variable {c : Char}

theorem not_has_of_single {t : Token} (h : ofChar? c = some t) (alone : ∀ t', t.merge? t' = none)
    (a : Axis) : ¬ a.has c := by
  intro ha
  rw [Axis.ofChar?_eq ha, Option.some.injEq] at h
  have joins := a.merge?_token (a.step c) 0
  rw [h, alone] at joins
  cases joins

theorem not_has_of_comment (h : ofChar? c = none) (a : Axis) : ¬ a.has c := by
  intro ha
  rw [Axis.ofChar?_eq ha] at h
  cases h

theorem ofSegment?_single (other : ∀ a : Axis, ¬ a.has c) : ofSegment? [c] = ofChar? c := by
  simp only [ofSegment?, if_neg (other .pointer), if_neg (other .data)]
  rcases ofChar?_cases c with comment | ⟨a, step⟩ | rfl | rfl | rfl | rfl
  · rw [comment]
    unfold alone?
    split
    case h_5 => rfl
    all_goals cases comment
  · exact absurd step (other a)
  all_goals rfl

theorem segmentTokens_comment (h : ofChar? c = none) (cs : List Char) :
    segmentTokens (c :: cs) = segmentTokens cs := by
  have other := not_has_of_comment h
  rw [segmentTokens, Axis.segments_single other, List.filterMap_cons, ofSegment?_single other, h]
  rfl

theorem segmentTokens_single {t : Token} (h : ofChar? c = some t)
    (alone : ∀ t', t.merge? t' = none) (cs : List Char) :
    segmentTokens (c :: cs) = t :: segmentTokens cs := by
  have other := not_has_of_single h alone
  rw [segmentTokens, Axis.segments_single other, List.filterMap_cons, ofSegment?_single other, h]
  rfl

/-- The scanner gives the tokens of the segments. -/
theorem scanFrom_eq_segmentTokens (cs : List Char) : scanFrom none cs = segmentTokens cs := by
  induction cs using text_induction with
  | nil => rfl
  | comment c cs h ih => rw [scanFrom_comment h, segmentTokens_comment h, ih]
  | run a run cs filled steps stop ih =>
      rw [scanFrom_run filled steps stop, ih, segmentTokens, segmentTokens,
        Axis.segments_run filled steps stop, List.filterMap_cons, Axis.ofSegment?_run filled steps]
  | output cs ih | input cs ih | opening cs ih | closing cs ih =>
      rw [scanFrom_single rfl fun _ => rfl, segmentTokens_single rfl fun _ => rfl, ih]

end Token

/-! ### The flat form and the tree -/

namespace Program

/-- The flat form of a tree and of the sequences that wait behind it. -/
def Tail.tokens (tail : Tail) : List Token :=
  tail.here.tokens ++ tail.outer.flatMap fun p => .closing :: p.tokens

/-- A token in front of a tail stands in front of its flat form, if an opening bracket finds a
sequence that waits for it. -/
theorem Tail.tokens_cons {t : Token} {tail : Tail} (waits : t ≠ .opening ∨ tail.outer ≠ []) :
    (Tail.cons t tail).tokens = t :: tail.tokens := by
  obtain ⟨here, outer⟩ := tail
  cases t with
  | opening =>
      cases outer with
      | nil => exact absurd ⟨rfl, rfl⟩ (not_and_or.mpr waits)
      | cons next outer => simp [Tail.cons, Tail.tokens, Program.tokens]
  | closing => simp [Tail.cons, Tail.tokens, Program.tokens]
  | move offset => rfl
  | add delta => rfl
  | output => rfl
  | input => rfl

/-- Building the tree from its flat form gives it back, in front of anything that waits. -/
theorem foldr_tokens (p : Program) (outer : List Program) :
    p.tokens.foldr Tail.cons ⟨.done, outer⟩ = ⟨p, outer⟩ := by
  induction p generalizing outer with
  | done => rfl
  | move offset rest ih | add delta rest ih | output rest ih | input rest ih =>
      rw [tokens, List.foldr_cons, ih]
      rfl
  | loop body rest ihBody ihRest =>
      rw [tokens, List.foldr_cons, List.foldr_append, List.foldr_cons, ihRest]
      change Tail.cons .opening (body.tokens.foldr Tail.cons ⟨.done, rest :: outer⟩) = _
      rw [ihBody]
      rfl

theorem ofTokens_tokens (p : Program) : ofTokens p.tokens = p := by
  rw [ofTokens, foldr_tokens]

theorem tokens_tailOf_cons {whole cs : List Char} {t : Token}
    (first : Token.scanFrom none whole = t :: Token.scanFrom none cs)
    (waits : t ≠ .opening ∨ (tailOf cs).outer ≠ [])
    (rest : (tailOf cs).tokens = Token.scanFrom none cs) :
    (tailOf whole).tokens = Token.scanFrom none whole := by
  rw [tailOf, first, List.foldr_cons]
  change (Tail.cons t (tailOf cs)).tokens = _
  rw [Tail.tokens_cons waits, rest]

/-- The tail of a text without stray brackets is flat the tokens of the text. -/
theorem tokens_tailOf {opened : List Nat} {index : Nat} {cs : List Char}
    (balanced : mismatchFrom? opened index cs = none) :
    (tailOf cs).tokens = Token.scanFrom none cs := by
  induction cs using text_induction generalizing opened index with
  | nil => rfl
  | comment c cs h ih =>
      obtain ⟨hopen, hclose⟩ := Token.ne_bracket_of_comment h
      rw [mismatchFrom?_plain hopen hclose] at balanced
      rw [tailOf, Token.scanFrom_comment h]
      exact ih balanced
  | run a run cs filled steps stop ih =>
      rw [mismatchFrom?_run steps] at balanced
      have step : a.token (a.net run) ≠ .opening := by cases a <;> simp [Axis.token]
      exact tokens_tailOf_cons (Token.scanFrom_run filled steps stop) (.inl step) (ih balanced)
  | output cs ih =>
      rw [mismatchFrom?_plain (by decide) (by decide)] at balanced
      have first := Token.scanFrom_single (c := '.') rfl (fun _ => rfl) cs
      exact tokens_tailOf_cons first (.inl (by decide)) (ih balanced)
  | input cs ih =>
      rw [mismatchFrom?_plain (by decide) (by decide)] at balanced
      have first := Token.scanFrom_single (c := ',') rfl (fun _ => rfl) cs
      exact tokens_tailOf_cons first (.inl (by decide)) (ih balanced)
  | opening cs ih =>
      rw [mismatchFrom?_opening] at balanced
      -- the bracket is open in what follows, so some sequence waits for it to close
      have waits : (tailOf cs).outer ≠ [] := by
        intro closed
        have count := (spelled_of_balanced balanced).count
        rw [closed] at count
        cases count
      have first := Token.scanFrom_single (c := '[') rfl (fun _ => rfl) cs
      exact tokens_tailOf_cons first (.inr waits) (ih balanced)
  | closing cs ih =>
      cases opened with
      | nil => cases balanced
      | cons first opened =>
          rw [mismatchFrom?_closing] at balanced
          have first := Token.scanFrom_single (c := ']') rfl (fun _ => rfl) cs
          exact tokens_tailOf_cons first (.inl (by decide)) (ih balanced)

theorem tokens_ofTokens_scan {text : String} (balanced : mismatch? text = none) :
    (ofTokens (Token.scan text)).tokens = Token.scan text := by
  have flat := tokens_tailOf balanced
  have alone : (tailOf text.toList).outer = [] :=
    List.eq_nil_of_length_eq_zero (spelled_of_balanced balanced).count
  rw [Tail.tokens, alone, List.flatMap_nil, List.append_nil] at flat
  exact flat

theorem scan_eq_segmentTokens (text : String) : Token.scan text = segmentTokens text.toList :=
  Token.scanFrom_eq_segmentTokens text.toList

theorem read_of_balanced {text : String} (balanced : Balanced text.toList) :
    read text = .ok (ofTokens (Token.scan text)) := by
  rw [read_eq, (mismatch?_eq_none_iff text).mpr balanced]

theorem balanced_of_read {text : String} {p : Program} (h : read text = .ok p) :
    Balanced text.toList := by
  rw [read_eq] at h
  split at h
  · cases h
  · next silent => exact (mismatch?_eq_none_iff text).mp silent

end Program

/-- Text is a program exactly if its brackets balance, and then it reads as the one tree whose flat
form is the tokens of its segments, left to right. -/
theorem balanced_text_reads_as_segments (text : String) :
    ((∃ p, Program.read text = .ok p) ↔ Balanced text.toList) ∧
      ∀ p, Program.read text = .ok p ↔
        Balanced text.toList ∧ p.tokens = segmentTokens text.toList := by
  refine ⟨⟨?_, fun balanced => ⟨_, Program.read_of_balanced balanced⟩⟩, ?_⟩
  · rintro ⟨p, reads⟩
    exact Program.balanced_of_read reads
  intro p
  constructor
  · intro reads
    have balanced := Program.balanced_of_read reads
    have whole := reads
    rw [Program.read_of_balanced balanced, Except.ok.injEq] at whole
    refine ⟨balanced, ?_⟩
    rw [← whole, Program.tokens_ofTokens_scan ((Program.mismatch?_eq_none_iff text).mpr balanced),
      Program.scan_eq_segmentTokens]
  · rintro ⟨balanced, flat⟩
    rw [Program.read_of_balanced balanced, Program.scan_eq_segmentTokens, ← flat,
      Program.ofTokens_tokens]

end TapeChain
