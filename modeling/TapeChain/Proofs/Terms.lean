import TapeChain.Artifact.Term
import TapeChain.Proofs.Words

/-! The reader of terms. What it reads is spaced out of the words of the term that it gives, and every
term without empty argument lists is read back from its words, however they are spaced. -/
namespace TapeChain

/-- The words of a symbol and its arguments. -/
def Word.node (head : String) (args : List (List Word)) : List Word :=
  .name head :: .less :: ([Word.comma].intercalate args ++ [.more])

mutual

def Term.words : Term → List Word
  | .leaf name => [.name name]
  | .node name args => Word.node name args.words
  | .literal text => [⟨.number, text⟩]

def Args.words : Args → List (List Word)
  | .nil => []
  | .cons t rest => t.words :: rest.words

end

mutual

/-- No argument list is empty. -/
def Term.Proper : Term → Prop
  | .leaf _ => True
  | .node _ args => args ≠ .nil ∧ args.Proper
  | .literal _ => True

def Args.Proper : Args → Prop
  | .nil => True
  | .cons t rest => t.Proper ∧ rest.Proper

end

namespace Word

theorem Separated.join {u v : List Word} {m : Word} (mark : m.IsMark) (hu : Separated u)
    (hv : Separated (m :: v)) : Separated (u ++ m :: v) := by
  refine List.isChain_append.mpr ⟨hu, hv, ?_⟩
  intro x _ y last
  cases last
  exact .inr mark

theorem intercalate_concat (args : List (List Word)) (u : List Word) :
    [comma].intercalate (args ++ [u]) = args.flatMap (· ++ [comma]) ++ u := by
  induction args with
  | nil => simp
  | cons v args ih =>
      cases args with
      | nil => simp
      | cons w args =>
          have first : (v :: w :: args).flatMap (· ++ [comma]) =
              v ++ [comma] ++ (w :: args).flatMap (· ++ [comma]) := List.flatMap_cons
          rw [List.cons_append, List.cons_append, List.intercalate_cons_cons, ← List.cons_append, ih,
            first, List.append_assoc (v ++ [comma])]

theorem separated_arguments {args : List (List Word)} (h : ∀ u ∈ args, Separated u) :
    Separated ([comma].intercalate args ++ [more]) := by
  induction args with
  | nil => exact List.isChain_singleton _
  | cons u args ih =>
      obtain ⟨first, others⟩ := List.forall_mem_cons.mp h
      cases args with
      | nil =>
          rw [List.intercalate_singleton]
          exact first.join (.inr (.inr rfl)) (List.isChain_singleton _)
      | cons v args =>
          rw [List.intercalate_cons_cons, List.append_assoc, List.append_assoc, List.singleton_append]
          refine first.join (.inr (.inl rfl)) (List.isChain_cons.mpr ⟨?_, ih others⟩)
          intro y _
          exact .inl (.inr (.inl rfl))

theorem separated_node (head : String) {args : List (List Word)} (h : ∀ u ∈ args, Separated u) :
    Separated (node head args) := by
  refine List.isChain_cons.mpr ⟨?_, List.isChain_cons.mpr ⟨?_, separated_arguments h⟩⟩
  · intro y next
    cases next
    exact .inr (.inl rfl)
  · intro y _
    exact .inl (.inl rfl)

theorem legal_intercalate_iff {args : List (List Word)} :
    (∀ w ∈ [comma].intercalate args, w.Legal) ↔ ∀ u ∈ args, ∀ w ∈ u, w.Legal := by
  induction args with
  | nil => simp
  | cons u args ih =>
      cases args with
      | nil => simp
      | cons v args =>
          have mark : ∀ w ∈ [comma], w.Legal := by
            rintro w (_ | ⟨_, ⟨⟩⟩)
            rfl
          rw [List.intercalate_cons_cons, List.forall_mem_append, List.forall_mem_append, ih,
            and_iff_left mark, List.forall_mem_cons (a := u)]

theorem legal_node_iff {head : String} {args : List (List Word)} :
    (∀ w ∈ node head args, w.Legal) ↔ IsName head.toList ∧ ∀ u ∈ args, ∀ w ∈ u, w.Legal := by
  have less : less.Legal := rfl
  have more : ∀ w ∈ [more], w.Legal := by
    rintro w (_ | ⟨_, ⟨⟩⟩)
    rfl
  rw [node, List.forall_mem_cons, List.forall_mem_cons, List.forall_mem_append,
    legal_intercalate_iff, and_iff_right less, and_iff_left more]
  rfl

end Word

mutual

theorem Term.separated : (t : Term) → Word.Separated t.words
  | .leaf _ => List.isChain_singleton _
  | .literal _ => List.isChain_singleton _
  | .node name args => Word.separated_node name args.separated

theorem Args.separated : (args : Args) → ∀ u ∈ args.words, Word.Separated u
  | .nil, _, mem => absurd mem List.not_mem_nil
  | .cons t rest, u, mem => by
      rcases List.mem_cons.mp mem with rfl | later
      · exact t.separated
      · exact rest.separated u later

end

/-! ### States and the words read so far -/

namespace TermState

def take? (w : Word) (s : TermState) : Option TermState := s.feed? ⟨w.kind, w.text, 0⟩

def readWords? : List Word → TermState → Option Term
  | [], s => s.result?
  | w :: ws, s => (s.take? w).bind (readWords? ws)

/-- The words of open terms, the outermost first. -/
def openWords : List OpenTerm → List Word
  | [] => []
  | o :: outer =>
    openWords outer ++ .name o.name :: .less ::
      (o.args.reverse.map Term.words).flatMap (· ++ [.comma])

/-- The words that led to a state. -/
def words : TermState → List Word
  | .expecting outer => openWords outer
  | .named name outer => openWords outer ++ [.name name]
  | .complete t outer => openWords outer ++ t.words

end TermState

theorem readTermFrom_eq_ok_iff {cs : List Char} {s : TermState} {previous : Option Lexeme}
    {lexemes : Lexemes} {t : Term} :
    readTermFrom cs s previous lexemes = .ok t ↔
      ∃ ws, lexemes.words? = some ws ∧ s.readWords? ws = some t := by
  induction lexemes generalizing s previous with
  | finished =>
      simp only [readTermFrom, Lexemes.words?, Option.some.injEq, exists_eq_left', TermState.readWords?]
      cases s.result? with
      | none => simp
      | some t => simp
  | stuck offset => simp [readTermFrom, Lexemes.words?]
  | next l rest ih =>
      have same : s.feed? l = s.take? l.word := rfl
      simp only [readTermFrom, Lexemes.words?, Option.map_eq_some_iff, same]
      constructor
      · intro h
        cases fed : s.take? l.word with
        | none =>
            rw [fed] at h
            dsimp only at h
            split at h <;> cases h
        | some s' =>
            rw [fed] at h
            obtain ⟨ws, later, read⟩ := ih.mp h
            refine ⟨l.word :: ws, ⟨ws, later, rfl⟩, ?_⟩
            rw [TermState.readWords?, fed]
            exact read
      · rintro ⟨_, ⟨ws, later, rfl⟩, read⟩
        obtain ⟨s', fed, read'⟩ := Option.bind_eq_some_iff.mp read
        rw [fed]
        exact ih.mpr ⟨ws, later, read'⟩

theorem Args.words_ofReversed (rest : Args) (ts : List Term) :
    (Args.ofReversed rest ts).words = ts.reverse.map Term.words ++ rest.words := by
  induction ts generalizing rest with
  | nil => rfl
  | cons t ts ih =>
      rw [Args.ofReversed, ih, List.reverse_cons, List.map_append, List.append_assoc]
      rfl

/-- Collected arguments, of which there is one at least, are proper. -/
theorem Args.proper_ofReversed {rest : Args} {ts : List Term} (present : rest ≠ .nil)
    (proper : rest.Proper) (h : ∀ t ∈ ts, t.Proper) :
    Args.ofReversed rest ts ≠ .nil ∧ (Args.ofReversed rest ts).Proper := by
  induction ts generalizing rest with
  | nil => exact ⟨present, proper⟩
  | cons t ts ih =>
      obtain ⟨first, others⟩ := List.forall_mem_cons.mp h
      exact ih (by rintro ⟨⟩) ⟨first, proper⟩ others

namespace TermState

/-- Behind a name all but an opening bracket is taken as behind a complete term. -/
theorem take?_named {name : String} {outer : List OpenTerm} {w : Word} (h : w.kind ≠ .less) :
    take? w (.named name outer) = settle (.leaf name) w.kind outer := by
  obtain ⟨kind, text⟩ := w
  cases kind with
  | less => exact absurd rfl h
  | name => rfl
  | number => rfl
  | comma => rfl
  | more => rfl
  | finish => rfl

theorem settle_words {t : Term} {w : Word} (legal : w.Legal) {outer : List OpenTerm} {s : TermState}
    (h : settle t w.kind outer = some s) : s.words = openWords outer ++ t.words ++ [w] := by
  cases outer with
  | nil => cases h
  | cons o outer =>
      rcases legal.cases with (rfl | rfl | rfl) | ⟨_, _, rfl, _⟩ | ⟨_, rfl⟩
      · cases h
      · cases h
        simp [words, openWords]
      · cases h
        simp only [words, openWords, Term.words, Word.node, Args.words_ofReversed, Args.words,
          Word.intercalate_concat, List.append_assoc, List.cons_append]
      · cases h
      · cases h

theorem take?_words {w : Word} (legal : w.Legal) {s s' : TermState} (h : s.take? w = some s') :
    s'.words = s.words ++ [w] := by
  cases s with
  | complete t outer => exact settle_words legal h
  | expecting outer =>
      rcases legal.cases with (rfl | rfl | rfl) | ⟨_, _, rfl, _⟩ | ⟨_, rfl⟩
      · cases h
      · cases h
      · cases h
      · cases h
        rfl
      · cases h
        rfl
  | named name outer =>
      by_cases less : w.kind = .less
      · obtain ⟨kind, text⟩ := w
        cases less
        cases legal
        cases h
        simp [words, openWords, Word.less]
      · rw [take?_named less] at h
        exact settle_words legal h

theorem result?_words {s : TermState} {t : Term} (h : s.result? = some t) : t.words = s.words := by
  unfold result? at h
  split at h
  · cases h
    rfl
  · cases h
    rfl
  · cases h

theorem readWords?_words {ws : List Word} (legal : ∀ w ∈ ws, w.Legal) {s : TermState} {t : Term}
    (h : s.readWords? ws = some t) : t.words = s.words ++ ws := by
  induction ws generalizing s with
  | nil => rw [result?_words h, List.append_nil]
  | cons w ws ih =>
      obtain ⟨first, others⟩ := List.forall_mem_cons.mp legal
      obtain ⟨s', taken, read⟩ := Option.bind_eq_some_iff.mp h
      rw [ih others read, take?_words first taken, List.append_assoc, List.singleton_append]

/-! ### What is read is proper -/

def OpenProper (outer : List OpenTerm) : Prop := ∀ o ∈ outer, ∀ t ∈ o.args, t.Proper

def Proper : TermState → Prop
  | .expecting outer => OpenProper outer
  | .named _ outer => OpenProper outer
  | .complete t outer => t.Proper ∧ OpenProper outer

theorem settle_proper {t : Term} {kind : LexemeKind} {outer : List OpenTerm} {s : TermState}
    (term : t.Proper) (proper : OpenProper outer) (h : settle t kind outer = some s) : s.Proper := by
  cases outer with
  | nil => cases h
  | cons o outer =>
      obtain ⟨first, others⟩ := List.forall_mem_cons.mp proper
      cases kind with
      | comma =>
          cases h
          exact List.forall_mem_cons.mpr ⟨List.forall_mem_cons.mpr ⟨term, first⟩, others⟩
      | more =>
          cases h
          exact ⟨Args.proper_ofReversed (by rintro ⟨⟩) ⟨term, trivial⟩ first, others⟩
      | name => cases h
      | number => cases h
      | less => cases h
      | finish => cases h

theorem take?_proper {w : Word} {s s' : TermState} (proper : s.Proper) (h : s.take? w = some s') :
    s'.Proper := by
  obtain ⟨kind, text⟩ := w
  cases s with
  | complete t outer => exact settle_proper proper.1 proper.2 h
  | expecting outer =>
      cases kind with
      | name =>
          cases h
          exact proper
      | number =>
          cases h
          exact ⟨trivial, proper⟩
      | less => cases h
      | comma => cases h
      | more => cases h
      | finish => cases h
  | named name outer =>
      by_cases less : kind = .less
      · subst less
        cases h
        exact List.forall_mem_cons.mpr ⟨fun t mem => absurd mem List.not_mem_nil, proper⟩
      · have leaf : (Term.leaf name).Proper := trivial
        rw [take?_named less] at h
        exact settle_proper leaf proper h

theorem readWords?_proper {ws : List Word} {s : TermState} {t : Term} (proper : s.Proper)
    (h : s.readWords? ws = some t) : t.Proper := by
  induction ws generalizing s with
  | nil =>
      unfold readWords? result? at h
      split at h
      · cases h
        exact trivial
      · cases h
        exact proper.1
      · cases h
  | cons w ws ih =>
      obtain ⟨s', taken, read⟩ := Option.bind_eq_some_iff.mp h
      exact ih (take?_proper proper taken) read

/-! ### Reading terms back -/

theorem readWords?_named {name : String} {outer : List OpenTerm} {rest : List Word}
    (follow : ∀ w ∈ rest.head?, w.kind ≠ .less) :
    readWords? rest (.named name outer) = readWords? rest (.complete (.leaf name) outer) := by
  cases rest with
  | nil => cases outer <;> rfl
  | cons w rest =>
      rw [readWords?, readWords?, take?_named (follow w rfl)]
      rfl

mutual

/-- A proper term is read back from its words, unless an argument list follows. -/
theorem readWords?_term : (t : Term) → t.Proper → ∀ (outer : List OpenTerm) (rest : List Word),
    (∀ w ∈ rest.head?, w.kind ≠ .less) →
    readWords? (t.words ++ rest) (.expecting outer) = readWords? rest (.complete t outer)
  | .leaf _, _, _, _, follow => readWords?_named follow
  | .literal _, _, _, _, _ => rfl
  | .node name args, proper, outer, rest, _ => by
      have inner := readWords?_args args proper.1 proper.2 ⟨name, []⟩ outer rest
      rw [Term.words, Word.node, List.cons_append, List.cons_append, List.append_assoc]
      exact inner

/-- So are arguments, behind those already collected. -/
theorem readWords?_args : (args : Args) → args ≠ .nil → args.Proper →
    ∀ (o : OpenTerm) (outer : List OpenTerm) (rest : List Word),
    readWords? ([Word.comma].intercalate args.words ++ ([.more] ++ rest)) (.expecting (o :: outer)) =
      readWords? rest (.complete (.node o.name (Args.ofReversed args o.args)) outer)
  | .nil, present, _, _, _, _ => absurd rfl present
  | .cons t .nil, _, proper, o, outer, rest => by
      rw [Args.words, Args.words, List.intercalate_singleton,
        readWords?_term t proper.1 (o :: outer) _ (by rintro w ⟨⟩; decide)]
      rfl
  | .cons t (.cons u us), _, proper, o, outer, rest => by
      have later := readWords?_args (.cons u us) (by rintro ⟨⟩) proper.2 ⟨o.name, t :: o.args⟩ outer rest
      rw [Args.words, Args.words, List.intercalate_cons_cons, ← Args.words, List.append_assoc,
        List.append_assoc, readWords?_term t proper.1 (o :: outer) _ (by rintro w ⟨⟩; decide)]
      exact later

end

end TermState

/-- What is read is a proper term, and the text is spaced out of its words. -/
theorem Term.found_of_read {text : String} {t : Term} (h : Term.read text = .ok t) :
    t.Proper ∧ Lexeme.Found t.words text.toList := by
  obtain ⟨ws, scanned, read⟩ := readTermFrom_eq_ok_iff.mp h
  have free : Lexeme.Held.Sound .nothing := trivial
  have fresh : (TermState.expecting []).Proper := fun o mem => absurd mem List.not_mem_nil
  have found := Lexeme.scanFrom_found free 0 scanned
  refine ⟨TermState.readWords?_proper fresh read, ?_⟩
  rw [TermState.readWords?_words found.2 read]
  exact found

/-- A proper term is read from every text that is spaced out of its words. -/
theorem Term.read_of_found {text : String} {t : Term} (proper : t.Proper)
    (found : Lexeme.Found t.words text.toList) : Term.read text = .ok t := by
  refine readTermFrom_eq_ok_iff.mpr
    ⟨t.words, Lexeme.scanFrom_spaced found.1 found.2 t.separated 0, ?_⟩
  have read := TermState.readWords?_term t proper [] [] (by rintro w ⟨⟩)
  rwa [List.append_nil] at read

end TapeChain
