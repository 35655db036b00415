import Mathlib.Data.List.Chain
import TapeChain.Artifact.Lexeme
import TapeChain.Proofs.Numeral

/-! The words of artifact text and the scanner that finds them. The scanner finishes only on a text
that is spaced out of words, and it finds them all when no two words but marks stand side by side. -/
namespace TapeChain

/-- A lexeme without its place. -/
structure Word where
  kind : LexemeKind
  text : String
  deriving DecidableEq

/-- Words in their order, with any blanks before, between and after them. -/
inductive Spaced : List Word → List Char → Prop
  | nil : Spaced [] []
  | blank {c ws cs} : c ∈ [' ', '\t', '\x0c', '\r', '\n'] → Spaced ws cs → Spaced ws (c :: cs)
  | word {w ws cs} : Spaced ws cs → Spaced (w :: ws) (w.text.toList ++ cs)

namespace Word

def name (text : String) : Word := ⟨.name, text⟩

def number (n : Numeral) : Word := ⟨.number, String.ofList n.chars⟩

def less : Word := ⟨.less, "<"⟩

def comma : Word := ⟨.comma, ","⟩

def more : Word := ⟨.more, ">"⟩

def IsMark (w : Word) : Prop := w = less ∨ w = comma ∨ w = more

/-- A letter or underscore, and then letters, underscores and digits. -/
def IsName : List Char → Prop
  | [] => False
  | c :: cs => Lexeme.isNameStart c ∧ cs.all Lexeme.isNamePart

instance : DecidablePred IsName
  | [] => .isFalse id
  | _ :: _ => inferInstanceAs (Decidable (_ ∧ _))

/-- The text of a word is one that its kind allows. -/
def Legal : Word → Prop
  | ⟨.name, text⟩ => IsName text.toList
  | ⟨.number, text⟩ => ∃ n : Numeral, text.toList = n.chars
  | ⟨.less, text⟩ => text = "<"
  | ⟨.comma, text⟩ => text = ","
  | ⟨.more, text⟩ => text = ">"
  | ⟨.finish, _⟩ => False

theorem legal_name {cs : List Char} (h : IsName cs) : Legal ⟨.name, String.ofList cs⟩ := by
  rw [Legal, String.toList_ofList]
  exact h

theorem legal_number (n : Numeral) : (number n).Legal := ⟨n, String.toList_ofList⟩

theorem Legal.cases {w : Word} (h : w.Legal) :
    w.IsMark ∨
      (∃ c cs, w = name (String.ofList (c :: cs)) ∧ Lexeme.isNameStart c ∧
        ∀ d ∈ cs, Lexeme.isNamePart d) ∨
      ∃ n, w = number n := by
  obtain ⟨kind, text⟩ := w
  cases kind with
  | less => exact .inl (.inl (congrArg _ h))
  | comma => exact .inl (.inr (.inl (congrArg _ h)))
  | more => exact .inl (.inr (.inr (congrArg _ h)))
  | finish => exact h.elim
  | name =>
      cases spelled : text.toList with
      | nil =>
          rw [Legal, spelled] at h
          exact h.elim
      | cons c cs =>
          rw [Legal, spelled] at h
          refine .inr (.inl ⟨c, cs, ?_, h.1, List.all_eq_true.mp h.2⟩)
          rw [name, ← spelled, String.ofList_toList]
  | number =>
      obtain ⟨n, spelled⟩ := h
      refine .inr (.inr ⟨n, ?_⟩)
      rw [number, ← spelled, String.ofList_toList]

theorem not_isMark_name {text : String} : ¬(name text).IsMark := by
  rintro (same | same | same) <;> cases congrArg kind same

theorem not_isMark_number {n : Numeral} : ¬(number n).IsMark := by
  rintro (same | same | same) <;> cases congrArg kind same

theorem IsName.push {cs : List Char} {c : Char} (h : IsName cs) (part : Lexeme.isNamePart c) :
    IsName (cs ++ [c]) := by
  cases cs with
  | nil => exact h.elim
  | cons d ds =>
      refine ⟨h.1, ?_⟩
      change (ds ++ [c]).all Lexeme.isNamePart
      rw [List.all_append, h.2, List.all_cons, part]
      rfl

/-- Two words side by side, one of them a mark, can stand without a blank between them. -/
def Separated (ws : List Word) : Prop := ws.IsChain fun u v => u.IsMark ∨ v.IsMark

end Word

def Numeral.push (n : Numeral) (c : Char) (digit : c.isDigit) : Numeral where
  sign := n.sign
  digits := n.digits ++ [c]
  present := List.append_ne_nil_of_right_ne_nil _ (List.cons_ne_nil c [])
  decimal d mem := by
    rcases List.mem_append.mp mem with old | new
    · exact n.decimal d old
    · rw [List.mem_singleton.mp new]
      exact digit

def Numeral.single (sign : Sign) (c : Char) (digit : c.isDigit) : Numeral where
  sign := sign
  digits := [c]
  present := List.cons_ne_nil c []
  decimal d mem := by
    rw [List.mem_singleton.mp mem]
    exact digit

def Lexeme.word (l : Lexeme) : Word := ⟨l.kind, l.text⟩

/-- The words of a scanned text; none if the scanner is stuck. -/
def Lexemes.words? : Lexemes → Option (List Word)
  | .finished => some []
  | .stuck _ => none
  | .next l rest => rest.words?.map (l.word :: ·)

namespace Lexeme

theorem isSpace_iff {c : Char} : isSpace c ↔ c ∈ [' ', '\t', '\x0c', '\r', '\n'] := by
  simp [isSpace, or_assoc]

/-- A lexeme in the making stands in the way of nothing that cannot extend it. -/
theorem scanFrom_close {held : Held} {cs : List Char} (offset : Nat)
    (h : ∀ c ∈ cs.head?, held.extend? c = none) :
    scanFrom held offset cs = held.close (scanFrom .nothing offset cs) := by
  cases cs with
  | nil => rfl
  | cons c cs =>
      rw [scanFrom, h c rfl]
      rfl

/-! ### What the scanner finds -/

def Held.chars : Held → List Char
  | .nothing => []
  | .name _ chars => chars.reverse
  | .number _ chars => chars.reverse
  | .sign _ c => [c]

def Held.Sound : Held → Prop
  | .nothing => True
  | .name _ chars => Word.IsName chars.reverse
  | .number _ chars => ∃ n : Numeral, chars.reverse = n.chars
  | .sign _ c => ∃ s : Sign, s.chars = [c]

/-- The words are legal, and the text is spaced out of them. -/
def Found (ws : List Word) (cs : List Char) : Prop := Spaced ws cs ∧ ∀ w ∈ ws, w.Legal

theorem Held.extend?_spec {c : Char} {held held' : Held} (h : held.extend? c = some held')
    (sound : held.Sound) : held'.Sound ∧ held'.chars = held.chars ++ [c] := by
  cases held with
  | nothing => cases h
  | name start chars =>
      by_cases part : isNamePart c
      · simp only [extend?, if_pos part, Option.some.injEq] at h
        subst h
        refine ⟨?_, List.reverse_cons⟩
        rw [Sound, List.reverse_cons]
        exact Word.IsName.push sound part
      · simp only [extend?, if_neg part, reduceCtorEq] at h
  | number start chars =>
      by_cases digit : c.isDigit
      · simp only [extend?, if_pos digit, Option.some.injEq] at h
        subst h
        obtain ⟨n, spelled⟩ := sound
        refine ⟨⟨n.push c digit, ?_⟩, List.reverse_cons⟩
        rw [List.reverse_cons, spelled, Numeral.chars, List.append_assoc]
        rfl
      · simp only [extend?, if_neg digit, reduceCtorEq] at h
  | sign start s =>
      by_cases digit : c.isDigit
      · simp only [extend?, if_pos digit, Option.some.injEq] at h
        subst h
        obtain ⟨sign, spelled⟩ := sound
        refine ⟨⟨.single sign c digit, ?_⟩, rfl⟩
        rw [Numeral.chars, Numeral.single, spelled]
        rfl
      · simp only [extend?, if_neg digit, reduceCtorEq] at h

/-- What a character begins is what it looks like. -/
def Begins.Sound (c : Char) : Begins → Prop
  | .held h => h.Sound ∧ h.chars = [c]
  | .mark kind => Word.Legal ⟨kind, String.ofList [c]⟩
  | .space => isSpace c
  | .nothing => True

theorem begins_sound (offset : Nat) (c : Char) : (begins offset c).Sound c := by
  unfold begins
  split_ifs with start digit sign less comma more space
  · exact ⟨⟨start, rfl⟩, rfl⟩
  · exact ⟨⟨.single .absent c digit, rfl⟩, rfl⟩
  · refine ⟨?_, rfl⟩
    simp only [Bool.or_eq_true, decide_eq_true_eq] at sign
    rcases sign with rfl | rfl
    · exact ⟨.plus, rfl⟩
    · exact ⟨.minus, rfl⟩
  · rw [less]
    rfl
  · rw [comma]
    rfl
  · rw [more]
    rfl
  · exact space
  · exact trivial

theorem Found.word {kind : LexemeKind} {chars : List Char} {ws : List Word} {cs : List Char}
    (legal : Word.Legal ⟨kind, String.ofList chars⟩) (h : Found ws cs) :
    Found (⟨kind, String.ofList chars⟩ :: ws) (chars ++ cs) := by
  refine ⟨?_, List.forall_mem_cons.mpr ⟨legal, h.2⟩⟩
  have spaced : Spaced (⟨kind, String.ofList chars⟩ :: ws) _ := .word h.1
  rwa [String.toList_ofList] at spaced

theorem Held.close_found {held : Held} (sound : held.Sound) {rest : Lexemes} {cs : List Char}
    (found : ∀ ws, rest.words? = some ws → Found ws cs) {ws : List Word}
    (h : (held.close rest).words? = some ws) : Found ws (held.chars ++ cs) := by
  cases held with
  | nothing => exact found ws h
  | sign start c => cases h
  | name start chars =>
      obtain ⟨ws, later, rfl⟩ := Option.map_eq_some_iff.mp h
      exact (found ws later).word (Word.legal_name sound)
  | number start chars =>
      obtain ⟨ws, later, rfl⟩ := Option.map_eq_some_iff.mp h
      obtain ⟨n, spelled⟩ := sound
      have legal : Word.Legal ⟨.number, String.ofList chars.reverse⟩ := by
        rw [spelled]
        exact Word.legal_number n
      exact (found ws later).word legal

/-- A text that is scanned to its end is spaced out of the words found in it. -/
theorem scanFrom_found {held : Held} (sound : held.Sound) (offset : Nat) {cs : List Char}
    {ws : List Word} (h : (scanFrom held offset cs).words? = some ws) :
    Found ws (held.chars ++ cs) := by
  -- what is in hand changes with every character, so the induction is for all of it
  induction cs generalizing held offset ws with
  | nil =>
      apply held.close_found sound _ h
      intro ws finished
      cases finished
      exact ⟨.nil, fun w mem => absurd mem List.not_mem_nil⟩
  | cons c cs ih =>
      rw [scanFrom] at h
      split at h
      next held' extended =>
        obtain ⟨sound', chars'⟩ := Held.extend?_spec extended sound
        have found := ih sound' (offset + 1) h
        rwa [chars', List.append_assoc] at found
      next =>
        have free : Held.Sound .nothing := trivial
        apply held.close_found sound _ h
        intro ws later
        have begun := begins_sound offset c
        split at later
        next held' here =>
          rw [here] at begun
          have found := ih begun.1 (offset + 1) later
          rwa [begun.2] at found
        next kind here =>
          rw [here] at begun
          obtain ⟨ws, later', rfl⟩ := Option.map_eq_some_iff.mp later
          exact (ih free (offset + 1) later').word begun
        next here =>
          rw [here] at begun
          have found := ih free (offset + 1) later
          exact ⟨.blank (isSpace_iff.mp begun) found.1, found.2⟩
        next => cases later

/-! ### All words are found -/

/-- No letter, underscore or digit comes first. -/
def Apart (cs : List Char) : Prop := ∀ c ∈ cs.head?, isNamePart c = false

theorem not_isDigit_of_not_isNamePart {c : Char} (h : isNamePart c = false) : c.isDigit = false := by
  simp only [isNamePart, Char.isAlphanum, Bool.or_eq_false_iff] at h
  exact h.1.2

theorem not_isNameStart_of_isDigit {c : Char} (digit : c.isDigit) : isNameStart c = false := by
  obtain ⟨low, high⟩ := Numeral.bounds_of_isDigit digit
  rw [Bool.eq_false_iff]
  intro start
  change (decide (c.val ≥ 65 ∧ c.val ≤ 90) || (decide (c.val ≥ 97) && decide (c.val ≤ 122)) ||
    decide (c = '_')) = true at start
  simp only [Bool.or_eq_true, Bool.and_eq_true, decide_eq_true_eq, UInt32.le_iff_toNat_le,
    ge_iff_le] at start
  change ((65 ≤ c.toNat ∧ c.toNat ≤ 90) ∨ (97 ≤ c.toNat ∧ c.toNat ≤ 122)) ∨ c = '_' at start
  rcases start with (upper | lower) | rfl
  · omega
  · omega
  · cases digit

theorem begins_digit (offset : Nat) {c : Char} (digit : c.isDigit) :
    begins offset c = .held (.number offset [c]) := by
  simp only [begins, not_isNameStart_of_isDigit digit, digit, Bool.false_eq_true, if_false, if_true]

theorem scanFrom_held {offset : Nat} {c : Char} {held : Held} (cs : List Char)
    (h : begins offset c = .held held) :
    scanFrom .nothing offset (c :: cs) = scanFrom held (offset + 1) cs := by
  simp only [scanFrom, Held.extend?, Held.close, h]

/-- Characters that all extend a lexeme in the making become part of it. -/
theorem scanFrom_extend {make : List Char → Held} {p : Char → Bool}
    (grows : ∀ chars c, p c → (make chars).extend? c = some (make (c :: chars))) {parts : List Char}
    (h : ∀ c ∈ parts, p c) (chars : List Char) (offset : Nat) (cs : List Char) :
    scanFrom (make chars) offset (parts ++ cs) =
      scanFrom (make (parts.reverse ++ chars)) (offset + parts.length) cs := by
  induction parts generalizing chars offset with
  | nil => rfl
  | cons c parts ih =>
      obtain ⟨first, others⟩ := List.forall_mem_cons.mp h
      rw [List.cons_append, scanFrom, grows chars c first]
      simp only [ih others, List.reverse_cons, List.append_assoc, List.singleton_append,
        List.length_cons, Nat.add_assoc, Nat.add_comm 1]

theorem scanFrom_name (start : Nat) {parts : List Char} (h : ∀ c ∈ parts, isNamePart c)
    (chars : List Char) (offset : Nat) (cs : List Char) :
    scanFrom (.name start chars) offset (parts ++ cs) =
      scanFrom (.name start (parts.reverse ++ chars)) (offset + parts.length) cs :=
  @scanFrom_extend (.name start) isNamePart (fun _ _ part => if_pos part) parts h chars offset cs

theorem scanFrom_number (start : Nat) {digits : List Char} (h : ∀ c ∈ digits, c.isDigit)
    (chars : List Char) (offset : Nat) (cs : List Char) :
    scanFrom (.number start chars) offset (digits ++ cs) =
      scanFrom (.number start (digits.reverse ++ chars)) (offset + digits.length) cs :=
  @scanFrom_extend (.number start) Char.isDigit (fun _ _ digit => if_pos digit) digits h chars offset
    cs

theorem scanFrom_numeral (n : Numeral) (offset : Nat) (cs : List Char) :
    ∃ offset', scanFrom .nothing offset (n.chars ++ cs) =
      scanFrom (.number offset n.chars.reverse) offset' cs := by
  obtain ⟨sign, digits, present, decimal⟩ := n
  cases digits with
  | nil => exact absurd rfl present
  | cons c digits =>
      obtain ⟨first, others⟩ := List.forall_mem_cons.mp decimal
      -- after its first digit a numeral goes on alike, with a sign or without
      have go (here : Nat) (before : List Char) :=
        scanFrom_number offset others (c :: before) here cs
      have signed (s : Char) :
          scanFrom (.sign offset s) (offset + 1) (c :: (digits ++ cs)) =
            scanFrom (.number offset [c, s]) (offset + 1 + 1) (digits ++ cs) := by
        simp only [scanFrom, Held.extend?, if_pos first]
      cases sign with
      | absent =>
          refine ⟨offset + 1 + digits.length, ?_⟩
          simp only [Numeral.chars, Sign.chars, List.nil_append, List.cons_append, List.reverse_cons,
            scanFrom_held _ (begins_digit offset first), go]
      | plus =>
          refine ⟨offset + 1 + 1 + digits.length, (scanFrom_held _ rfl).trans ((signed '+').trans ?_)⟩
          simp only [go, Numeral.chars, Sign.chars, List.cons_append, List.reverse_cons,
            List.nil_append, List.append_assoc]
      | minus =>
          refine ⟨offset + 1 + 1 + digits.length, (scanFrom_held _ rfl).trans ((signed '-').trans ?_)⟩
          simp only [go, Numeral.chars, Sign.chars, List.cons_append, List.reverse_cons,
            List.nil_append, List.append_assoc]

/-- A word that nothing extends is the next one to be found. -/
theorem scanFrom_word {w : Word} (legal : w.Legal) (offset : Nat) {cs : List Char}
    (apart : w.IsMark ∨ Apart cs) :
    ∃ offset', scanFrom .nothing offset (w.text.toList ++ cs) =
      .next ⟨w.kind, w.text, offset⟩ (scanFrom .nothing offset' cs) := by
  rcases legal.cases with (rfl | rfl | rfl) | ⟨c, parts, rfl, start, others⟩ | ⟨n, rfl⟩
  · exact ⟨offset + 1, rfl⟩
  · exact ⟨offset + 1, rfl⟩
  · exact ⟨offset + 1, rfl⟩
  · have here : begins offset c = .held (.name offset [c]) := by rw [begins, if_pos start]
    have close (d : Char) (mem : d ∈ cs.head?) :
        (Held.name offset (parts.reverse ++ [c])).extend? d = none := by
      have next := apart.resolve_left Word.not_isMark_name d mem
      simp only [Held.extend?, next, Bool.false_eq_true, if_false]
    refine ⟨offset + 1 + parts.length, ?_⟩
    simp only [Word.name, String.toList_ofList, List.cons_append]
    rw [scanFrom_held _ here, scanFrom_name _ others, scanFrom_close _ close, Held.close,
      List.reverse_append, List.reverse_reverse, List.reverse_singleton, List.singleton_append]
  · obtain ⟨offset', path⟩ := scanFrom_numeral n offset cs
    have close (d : Char) (mem : d ∈ cs.head?) :
        (Held.number offset n.chars.reverse).extend? d = none := by
      have next := apart.resolve_left Word.not_isMark_number d mem
      simp only [Held.extend?, not_isDigit_of_not_isNamePart next, Bool.false_eq_true, if_false]
    refine ⟨offset', ?_⟩
    simp only [Word.number, String.toList_ofList]
    rw [path, scanFrom_close _ close, Held.close, List.reverse_reverse]

theorem scanFrom_blank {c : Char} (h : c ∈ [' ', '\t', '\x0c', '\r', '\n']) (offset : Nat)
    (cs : List Char) :
    scanFrom .nothing offset (c :: cs) = scanFrom .nothing (offset + 1) cs := by
  simp only [List.mem_cons, List.not_mem_nil, or_false] at h
  rcases h with rfl | rfl | rfl | rfl | rfl <;> rfl

/-- Behind a word comes a blank, a mark or the end, if a mark is next. -/
theorem apart_of_spaced {ws : List Word} {cs : List Char} (h : Spaced ws cs)
    (next : ∀ w ∈ ws.head?, w.IsMark) : Apart cs := by
  intro d mem
  cases h with
  | nil => cases mem
  | blank space _ =>
      cases mem
      simp only [List.mem_cons, List.not_mem_nil, or_false] at space
      rcases space with rfl | rfl | rfl | rfl | rfl <;> rfl
  | word _ =>
      rcases next _ rfl with rfl | rfl | rfl <;> cases mem <;> rfl

/-- Separated legal words are found in every text that is spaced out of them. -/
theorem scanFrom_spaced {ws : List Word} {cs : List Char} (h : Spaced ws cs)
    (legal : ∀ w ∈ ws, w.Legal) (separated : Word.Separated ws) (offset : Nat) :
    (scanFrom .nothing offset cs).words? = some ws := by
  induction h generalizing offset with
  | nil => rfl
  | blank space _ ih => rw [scanFrom_blank space, ih legal separated]
  | @word w ws cs spaced ih =>
      obtain ⟨first, others⟩ := List.forall_mem_cons.mp legal
      obtain ⟨side, later⟩ := List.isChain_cons.mp separated
      have apart : w.IsMark ∨ Apart cs := by
        by_cases mark : w.IsMark
        · exact .inl mark
        · exact .inr (apart_of_spaced spaced fun v mem => (side v mem).resolve_left mark)
      obtain ⟨offset', path⟩ := scanFrom_word first offset apart
      rw [path, Lexemes.words?, ih others later offset']
      rfl

end Lexeme

end TapeChain
