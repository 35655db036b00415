import TapeChain.Proofs.Artifact

/-! Printing and reading. The text of a chain, in either style, is read back as the chain, and so is
every text with the same words, whatever the blanks around them. -/
namespace TapeChain

def Operand.words (o : Operand) : Style → List Word
  | .canonical => Word.node "Int" (o.digits.map fun d => [.name d.name])
  | .friendly => [.number (.ofInt o.value)]

def Chain.words (style : Style) : Chain → List Word
  | .stop => [.name "Stop"]
  | .loop body next => Word.node "Loop" [body.words style, next.words style]
  | .move offset next => Word.node "AddPointer" [offset.words style, next.words style]
  | .add delta next => Word.node "AddData" [delta.words style, next.words style]
  | .output next => Word.node "OutputData" [next.words style]
  | .input next => Word.node "InputData" [next.words style]

theorem Operand.words_spell (style : Style) (o : Operand) : o.Words (o.words style) := by
  cases style with
  | canonical => exact .digits o
  | friendly =>
      obtain ⟨low, high⟩ := o.value_bounds
      have short := Numeral.length_ofInt low high
      have spelled : (encode (Numeral.ofInt o.value).value).Words [.number (.ofInt o.value)] := by
        apply Words.numeral
        · omega
        · rw [Numeral.value_ofInt]
          exact low
        · rw [Numeral.value_ofInt]
          exact high
      rwa [Numeral.value_ofInt, encode_value] at spelled

theorem Chain.words_spell (style : Style) (c : Chain) : c.Words (c.words style) := by
  induction c with
  | stop => exact .stop
  | loop body next ihBody ihNext => exact .loop ihBody ihNext
  | move offset next ih => exact .move (offset.words_spell style) ih
  | add delta next ih => exact .add (delta.words_spell style) ih
  | output next ih => exact .output ih
  | input next ih => exact .input ih

/-! ### The words of printed text -/

namespace Word

theorem node_one (head : String) (u ws : List Word) :
    node head [u] ++ ws = name head :: less :: (u ++ more :: ws) := by
  simp [node]

theorem node_two (head : String) (u v ws : List Word) :
    node head [u, v] ++ ws = name head :: less :: (u ++ comma :: (v ++ more :: ws)) := by
  simp [node]

end Word

namespace Spaced

variable {ws : List Word} {after : List String}

theorem piece {w : Word} (h : Spaced ws (String.join after).toList) :
    Spaced (w :: ws) (String.join (w.text :: after)).toList := by
  rw [String.join_cons, String.toList_append]
  exact .word h

theorem opening (head : String) (h : Spaced ws (String.join after).toList) :
    Spaced (.name head :: .less :: ws) (String.join ((head ++ "<") :: after)).toList := by
  rw [String.join_cons, String.append_assoc, ← String.join_cons, ← String.join_cons]
  exact (h.piece (w := .less)).piece (w := .name head)

theorem comma (h : Spaced ws (String.join after).toList) :
    Spaced (.comma :: ws) (String.join (", " :: after)).toList := by
  have space : Spaced ws (' ' :: (String.join after).toList) := .blank (by decide) h
  rw [String.join_cons, String.toList_append]
  exact .word space

theorem closing (h : Spaced ws (String.join after).toList) :
    Spaced (.more :: ws) (String.join (">" :: after)).toList := h.piece

theorem names {names : List String} (present : names ≠ [])
    (h : Spaced ws (String.join after).toList) :
    Spaced ([Word.comma].intercalate (names.map fun name => [.name name]) ++ ws)
      (String.join (", ".intercalate names :: after)).toList := by
  induction names with
  | nil => exact absurd rfl present
  | cons name names ih =>
      cases names with
      | nil =>
          rw [String.intercalate_singleton]
          exact h.piece
      | cons next names =>
          have later := (ih (List.cons_ne_nil _ _)).comma
          rw [String.intercalate_cons_cons, String.join_cons, String.append_assoc,
            String.append_assoc, ← String.join_cons, ← String.join_cons, ← String.join_cons,
            List.map_cons, List.map_cons, List.intercalate_cons_cons, List.append_assoc,
            List.append_assoc]
          exact later.piece (w := .name name)

theorem operand (style : Style) (o : Operand) (h : Spaced ws (String.join after).toList) :
    Spaced (o.words style ++ ws) (String.join (o.spell style :: after)).toList := by
  cases style with
  | canonical =>
      have present : o.digits.map HexDigit.name ≠ [] := List.cons_ne_nil _ _
      have spaced := (h.closing.names present).opening "Int"
      rw [List.map_map] at spaced
      rw [Operand.words, Word.node, List.cons_append, List.cons_append, List.append_assoc,
        Operand.spell, String.join_cons, String.append_assoc, String.append_assoc,
        ← String.join_cons, ← String.join_cons, ← String.join_cons]
      exact spaced
  | friendly =>
      rw [Operand.spell, Numeral.toString_eq]
      exact h.piece (w := .number (.ofInt o.value))

end Spaced

theorem Chain.spaced_pieces (style : Style) (c : Chain) {ws : List Word} {after : List String}
    (h : Spaced ws (String.join after).toList) :
    Spaced (c.words style ++ ws) (String.join (c.pieces style after)).toList := by
  induction c generalizing ws after with
  | stop => exact h.piece (w := .name "Stop")
  | loop body next ihBody ihNext =>
      rw [words, Word.node_two]
      exact (ihBody (ihNext h.closing).comma).opening "Loop"
  | move offset next ih =>
      rw [words, Word.node_two]
      exact ((ih h.closing).comma.operand style offset).opening "AddPointer"
  | add delta next ih =>
      rw [words, Word.node_two]
      exact ((ih h.closing).comma.operand style delta).opening "AddData"
  | output next ih =>
      rw [words, Word.node_one]
      exact (ih h.closing).opening "OutputData"
  | input next ih =>
      rw [words, Word.node_one]
      exact (ih h.closing).opening "InputData"

theorem Chain.spaced_spell (style : Style) (c : Chain) :
    Spaced (c.words style) (c.spell style).toList := by
  have spaced : Spaced (c.words style ++ []) (String.join (c.pieces style [])).toList :=
    c.spaced_pieces style .nil
  rwa [List.append_nil] at spaced

theorem Chain.scan_spell (style : Style) (c : Chain) :
    (Lexeme.scan (c.spell style)).words? = some (c.words style) := by
  obtain ⟨legal, t, words, _⟩ := Value.Described.chain (c.words_spell style)
  have separated := t.separated
  rw [words] at separated
  exact Lexeme.scanFrom_spaced (c.spaced_spell style) legal separated 0

/-- The text of a chain is read back as the chain. So is every text with the same words, with any
blanks before, between and behind them, and the words are those that the scanner finds. -/
theorem ofText_spell (c : Chain) (style : Style) :
    Chain.ofText (c.spell style) = .ok c ∧
      (Lexeme.scan (c.spell style)).words? = some (c.words style) ∧
      Spaced (c.words style) (c.spell style).toList ∧
      ∀ text : String, Spaced (c.words style) text.toList → Chain.ofText text = .ok c := by
  have spaced := c.spaced_spell style
  have read (text : String) (h : Spaced (c.words style) text.toList) : Chain.ofText text = .ok c :=
    Chain.ofText_of_words (c.words_spell style) h
  exact ⟨read (c.spell style) spaced, c.scan_spell style, spaced, read⟩

/-- The least operand in the friendly style, with a blank wherever one may stand. -/
theorem least_operand_ofText :
    Spaced ((Chain.add (.encode Operand.least) .stop).words .friendly)
        " AddData\t< -2147483648\r,\nStop >\x0c".toList ∧
      Chain.ofText " AddData\t< -2147483648\r,\nStop >\x0c" =
        .ok (.add (.encode Operand.least) .stop) := by
  have letters : " AddData\t< -2147483648\r,\nStop >\x0c".toList =
      ' ' :: ("AddData".toList ++ '\t' :: ("<".toList ++ ' ' ::
        ((String.ofList (Numeral.ofInt (Operand.encode Operand.least).value).chars).toList ++ '\r' ::
          (",".toList ++ '\n' :: ("Stop".toList ++ ' ' :: (">".toList ++ ['\x0c'])))))) := by
    decide
  have spaced : Spaced ((Chain.add (.encode Operand.least) .stop).words .friendly)
      " AddData\t< -2147483648\r,\nStop >\x0c".toList := by
    rw [letters]
    exact .blank (by decide) (.word (.blank (by decide) (.word (.blank (by decide) (.word
      (.blank (by decide) (.word (.blank (by decide) (.word (.blank (by decide) (.word
        (.blank (by decide) .nil))))))))))))
  exact ⟨spaced, (ofText_spell _ _).2.2.2 _ spaced⟩

end TapeChain
